import SandboxStack.CFileParts
import SandboxStack.LebAgreement

namespace SandboxStack.NameText
open Lexing Leb128

-- A name as the module has it, and the block that strncpy fills for it: up to a
-- zero byte the name, from there on zeros, and the zero byte at the end.
def strncpy (source : List Byte) (n : Nat) : List Byte :=
  let copied := (source.take n).takeWhile (· != 0)
  copied ++ List.replicate (n - copied.length) 0

def wasmReadName (buffer : List Byte) : Option (List Byte × List Byte) :=
  let (length,count,data) := leb128ReadU32 buffer
  if count > 0 ∧ length.toNat ≤ data.length then some (strncpy data length.toNat ++ [0],data.drop length.toNat) else none

def stored (name : List Byte) : List Byte := strncpy name name.length ++ [0]
def cString (block : List Byte) : List Byte := block.takeWhile (· != 0)

inductive WasmValueType where
  | i32 | i64 | f32 | f64
  deriving DecidableEq, Repr

inductive WasmExportKind where
  | function | table | memory | global
  deriving DecidableEq, Repr

-- Names are the bytes in the binary. The reader keeps them as they are stored.
structure WasmImport where
  module : List Byte
  name : List Byte

structure WasmGlobalImport extends WasmImport where
  valueType : WasmValueType

structure WasmExport where
  kind : WasmExportKind
  index : Nat
  name : List Byte

structure WasmModule where
  functionImports : List WasmImport
  memoryImports : List WasmImport
  tableImports : List WasmImport
  globalImports : List WasmGlobalImport
  exports : List WasmExport

-- The options of the translation, with the name that it takes from the path of the module.
structure Options where
  moduleName : List Byte
  alphanumeric : ∀ b ∈ moduleName, part b = true
  pretty : Bool
  multipleModules : Bool

def fputs (text : String) : Part := .text (ascii text)
def decimalText (n : Nat) : List Byte := (Nat.toDigits 10 n).map fun c => BitVec.ofNat 8 c.toNat
def indentation : String := "  "

def isalnum (c : Byte) : Bool := (48 ≤ c && c ≤ 57) || (65 ≤ c && c ≤ 90) || (97 ≤ c && c ≤ 122)
def hexDigit (n : Nat) : Byte := BitVec.ofNat 8 (if n < 10 then 48 + n else 55 + n)

-- %02X of a char. A negative one becomes a negative int.
def charHex (c : Byte) : List Byte :=
  (if c.msb then ascii "FFFFFF" else []) ++ [hexDigit (c.toNat / 16),hexDigit (c.toNat % 16)]

-- The loop of wasmCWriteFileEscaped, after the byte before.
def escapedAfter (before : Option Byte) : List Byte → List Byte
  | [] => []
  | c :: rest =>
    (if c = 95 then if before = some 95 then [95,95] else [c]
      else if c ≠ 88 ∧ isalnum c = true then [c]
      else 88 :: charHex c) ++ escapedAfter (some c) rest

def wasmCWriteFileEscaped (name : List Byte) : List Byte := escapedAfter none (cString name)

def wasmImportNameSeparator : List Byte := ascii "__"

def wasmCWriteFileImportName (module name : List Byte) : List Byte :=
  wasmCWriteFileEscaped module ++ wasmImportNameSeparator ++ wasmCWriteFileEscaped name

def wasmCWriteFileFunctionNonImportName (functionIndex : Nat) : List Byte := ascii "f" ++ decimalText functionIndex

def wasmCWriteFileFunctionUse (o : Options) (m : WasmModule) (functionIndex : Nat) (reference pre : Bool) : List Part :=
  (if reference then [fputs "&"] else []) ++
    [.word ((if pre then o.moduleName ++ ascii "_" else []) ++
      match m.functionImports[functionIndex]? with
      | some i => wasmCWriteFileImportName (stored i.module) (stored i.name)
      | none => wasmCWriteFileFunctionNonImportName functionIndex)]

def functionExports (m : WasmModule) : List WasmExport := m.exports.filter (·.kind = .function)

def wasmCWriteModuleFunctionExportsArray (o : Options) (m : WasmModule) : List Part :=
  [fputs "wasmFuncExport ",.text (o.moduleName ++ ascii "FuncExports"),fputs "[",
    .text (decimalText (((functionExports m).length + 1) % 2 ^ 32)),fputs "] = \x7b\n"] ++
  (functionExports m).flatMap (fun e =>
    [fputs "\x7b(wasmFunc)"] ++ wasmCWriteFileFunctionUse o m e.index false o.multipleModules ++
      [fputs ",",.quoted (cString (stored e.name)),fputs "\x7d,\n"]) ++
  [fputs "\x7bNULL,NULL\x7d\n\x7d;\n\n"]

def wasmCWriteInitImportAssignment (o : Options) (module name : List Byte) : List Part :=
  (if o.pretty then [fputs indentation] else []) ++ [fputs "i->",.word (wasmCWriteFileImportName module name)] ++
    if o.pretty then [fputs " =\n",fputs indentation,fputs indentation] else [fputs "="]

def wasmCWriteInitImportValue (module name : List Byte) : List Part :=
  [fputs "resolve(",.quoted (cString module),fputs ", ",.quoted (cString name),fputs ");\n"]

def valueTypeNames : WasmValueType → String
  | .i32 => "U32"
  | .i64 => "U64"
  | .f32 => "F32"
  | .f64 => "F64"

-- The loops over the memory, the table and the global imports differ in the type.
def writeInitImport (o : Options) (type : List Part) (i : WasmImport) : List Part :=
  wasmCWriteInitImportAssignment o (stored i.module) (stored i.name) ++ [fputs "("] ++ type ++ [fputs ")"] ++
    wasmCWriteInitImportValue (stored i.module) (stored i.name)

def wasmCWriteMemoryType : List Part := [fputs "wasmMemory*"]
def wasmCWriteTableType : List Part := [fputs "wasmTable*"]
def wasmCWriteGlobalImportType (i : WasmGlobalImport) : List Part := [fputs (valueTypeNames i.valueType),fputs "*"]

def wasmCWriteInitMemoryImports (o : Options) (m : WasmModule) : List Part :=
  m.memoryImports.flatMap (writeInitImport o wasmCWriteMemoryType)

def wasmCWriteInitTableImports (o : Options) (m : WasmModule) : List Part :=
  m.tableImports.flatMap (writeInitImport o wasmCWriteTableType)

def wasmCWriteInitGlobalImports (o : Options) (m : WasmModule) : List Part :=
  m.globalImports.flatMap fun i => writeInitImport o (wasmCWriteGlobalImportType i) i.toWasmImport

def wasmCWriteInitImports (o : Options) (m : WasmModule) : List Part :=
  [fputs "static void ",.text (o.moduleName ++ ascii "InitImports"),fputs "(",.text (o.moduleName ++ ascii "Instance"),
    fputs "* i, void* resolve(const char* module, const char* name)) \x7b\n"] ++
  (if o.pretty then [fputs indentation] else []) ++ [fputs "if (resolve == NULL) \x7b return; \x7d\n"] ++
  wasmCWriteInitMemoryImports o m ++ wasmCWriteInitTableImports o m ++ wasmCWriteInitGlobalImports o m ++ [fputs "\x7d\n\n"]

end SandboxStack.NameText
