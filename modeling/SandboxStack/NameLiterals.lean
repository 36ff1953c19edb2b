import SandboxStack.NameText

namespace SandboxStack.NameText
open Lexing Leb128

section
variable {ps : List Part} {s : String}

@[simp] theorem words_fputs : words (fputs s :: ps) = words ps := rfl
@[simp] theorem quoted_fputs : quotedNames (fputs s :: ps) = quotedNames ps := rfl

end

-- ---- the names as they are written ----

section
variable {d : Dialect} {o : Options} {m m' : WasmModule} {name after : List Byte} {before : Option Byte} {c : Byte} {n : Nat}

theorem hexDigit_part (small : n < 16) : part (hexDigit n) = true := by
  revert n
  decide

theorem charHex_parts (c : Byte) : ∀ b ∈ charHex c, part b = true := by
  intro b inside
  rcases List.mem_append.mp inside with sign | digits
  · split at sign
    · exact (show ∀ b ∈ ascii "FFFFFF", part b = true by decide) b sign
    · cases sign
  · have small := c.isLt
    rcases List.mem_cons.mp digits with rfl | low
    · exact hexDigit_part (by omega)
    · cases List.mem_singleton.mp low
      exact hexDigit_part (Nat.mod_lt _ (by decide))

theorem isalnum_part (named : isalnum c = true) : part c = true := by
  revert c
  decide

theorem escapedAfter_parts : ∀ b ∈ escapedAfter before name, part b = true := by
  induction name generalizing before with
  | nil => intro b inside; cases inside
  | cons c name ih =>
    intro b inside
    rw [escapedAfter,List.mem_append] at inside
    rcases inside with own | later
    · split at own
      · rename_i underscore
        cases underscore
        have all : ∀ b ∈ (if before = some 95 then [95,95] else [95] : List Byte), part b = true := by
          split <;> decide
        exact all b own
      · split at own
        · rename_i plain
          cases List.mem_singleton.mp own
          exact isalnum_part plain.2
        · rcases List.mem_cons.mp own with rfl | hex
          · decide
          · exact charHex_parts c b hex
    · exact ih b later

theorem importName_word (module name : List Byte) : Word (wasmCWriteFileImportName module name) := by
  have all : ∀ b ∈ wasmCWriteFileImportName module name, part b = true := by
    intro b inside
    rcases List.mem_append.mp inside with first | last
    · rcases List.mem_append.mp first with own | separator
      · exact escapedAfter_parts b own
      · exact (show ∀ b ∈ wasmImportNameSeparator, part b = true by decide) b separator
    · exact escapedAfter_parts b last
  refine ⟨fun none => ?_,all⟩
  have some' : (95 : Byte) ∈ wasmCWriteFileImportName module name :=
    List.mem_append_left _ (List.mem_append_right _ (show 95 ∈ wasmImportNameSeparator by decide))
  rw [none] at some'
  cases some'

theorem decimalText_word (n : Nat) : Word (decimalText n) := by
  refine ⟨fun none => Nat.toDigits_ne_nil (List.map_eq_nil_iff.mp none),fun b inside => ?_⟩
  obtain ⟨digit,known,rfl⟩ := List.mem_map.mp inside
  have bounds := Char.isDigit_iff_toNat.mp (Nat.isDigit_of_mem_toDigits (by decide) (by decide) known)
  exact (show ∀ k < 58, 48 ≤ k → part (BitVec.ofNat 8 k) = true by decide) _ (Nat.lt_succ_of_le bounds.2) bounds.1

theorem Word.join {w x : List Byte} (parts : ∀ b ∈ w, part b = true) (word : Word x) : Word (w ++ x) :=
  ⟨fun none => word.nonempty (List.append_eq_nil_iff.mp none).2,
    fun b inside => (List.mem_append.mp inside).elim (parts b) (word.parts b)⟩

theorem functionUse_word (o : Options) (m : WasmModule) (n : Nat) (pre : Bool) :
    ∃ w, wasmCWriteFileFunctionUse o m n false pre = [.word w] ∧ Word w := by
  refine ⟨_,rfl,Word.join ?_ ?_⟩
  · intro b inside
    cases pre with
    | false => cases inside
    | true =>
      rcases List.mem_append.mp inside with own | underscore
      · exact o.alphanumeric b own
      · exact (show ∀ b ∈ ascii "_", part b = true by decide) b underscore
  · split
    · exact importName_word _ _
    · exact Word.join (by decide) (decimalText_word n)

-- Two modules that differ in the names of their imports and exports only.
structure Renamed (m m' : WasmModule) : Prop where
  functionImports : m.functionImports.length = m'.functionImports.length
  memoryImports : m.memoryImports.length = m'.memoryImports.length
  tableImports : m.tableImports.length = m'.tableImports.length
  globalImports : List.Forall₂ (fun i i' => i.valueType = i'.valueType) m.globalImports m'.globalImports
  exports : List.Forall₂ (fun e e' => e.kind = e'.kind ∧ e.index = e'.index) m.exports m'.exports

theorem funcExport_laid {w w' : List Byte} (name name' : List Byte) (word : Word w) (word' : Word w') :
    Laid d [fputs "\x7b(wasmFunc)",.word w,fputs ",",.quoted name,fputs "\x7d,\n"]
      [fputs "\x7b(wasmFunc)",.word w',fputs ",",.quoted name',fputs "\x7d,\n"] := by
  refine .fixed (by decide +kernel) (.word word word' ⟨44,[],rfl,⟨by decide,by decide⟩,by decide⟩ ?_)
  exact .fixed (by decide +kernel) (.quoted (.fixed (by decide +kernel) .nil))

theorem arrayHead_reads (o : Options) (n : Nat) :
    ∃ ts, Reads d (ascii "wasmFuncExport " ++
      [o.moduleName ++ ascii "FuncExports",ascii "[",decimalText n,ascii "] = \x7b\n"].flatten) ts := by
  obtain ⟨first,start⟩ := (show Sealed (ascii "wasmFuncExport ") by decide +kernel).reads d
  obtain ⟨middle,bracket⟩ := (show Sealed (ascii "[") by decide +kernel).reads d
  obtain ⟨last,stop⟩ := (show Sealed (ascii "] = \x7b\n") by decide +kernel).reads d
  have array : Word (o.moduleName ++ ascii "FuncExports") := Word.join o.alphanumeric ⟨by decide,by decide⟩
  have count := (decimalText_word n).before ⟨93,ascii " = \x7b\n",by decide,⟨by decide,by decide⟩,by decide⟩ stop
  have named : Reads d (o.moduleName ++ ascii "FuncExports" ++ (ascii "[" ++ (decimalText n ++ ascii "] = \x7b\n"))) _ :=
    array.before ⟨91,_,rfl,⟨by decide,by decide⟩,by decide⟩ (bracket.append count)
  exact ⟨_,by simpa only [List.flatten_cons,List.flatten_nil,List.append_nil] using start.append named⟩

theorem Renamed.functionExports (renamed : Renamed m m') :
    List.Forall₂ (fun e e' => e.kind = e'.kind ∧ e.index = e'.index) (functionExports m) (functionExports m') :=
  List.rel_filter (fun _ _ same => iff_of_eq (congrArg (fun kind => decide (kind = WasmExportKind.function) = true) same.1))
    renamed.exports

theorem exportsArray_laid (renamed : Renamed m m') :
    Laid d (wasmCWriteModuleFunctionExportsArray o m) (wasmCWriteModuleFunctionExportsArray o m') := by
  have same := renamed.functionExports
  unfold wasmCWriteModuleFunctionExportsArray
  rw [same.length_eq]
  refine .append (.append (.texts (arrayHead_reads o _) .nil) (.flatMap same ?_)) (.fixed (by decide +kernel) .nil)
  rintro e e' ⟨_,index⟩
  rw [index]
  obtain ⟨w,written,word⟩ := functionUse_word o m e'.index o.multipleModules
  obtain ⟨w',written',word'⟩ := functionUse_word o m' e'.index o.multipleModules
  rw [written,written']
  exact funcExport_laid _ _ word word'

-- The text from the name that is assigned to on to the first literal.
def resolving (pretty : Bool) (type : List (List Byte)) : List (List Byte) :=
  (if pretty then [ascii " =\n",ascii indentation,ascii indentation] else [ascii "="]) ++ [ascii "("] ++ type ++
    [ascii ")",ascii "resolve("]

theorem initImport_laid (type : List (List Byte)) (whole : Sealed (resolving o.pretty type).flatten) (i i' : WasmImport) :
    Laid d (writeInitImport o (type.map .text) i) (writeInitImport o (type.map .text) i') := by
  have parts : ∀ i : WasmImport, writeInitImport o (type.map .text) i =
      (if o.pretty then [fputs indentation] else []) ++ (fputs "i->" ::
        .word (wasmCWriteFileImportName (stored i.module) (stored i.name)) :: ((resolving o.pretty type).map .text ++
          [.quoted (cString (stored i.module)),fputs ", ",.quoted (cString (stored i.name)),fputs ");\n"])) := by
    intro i
    unfold writeInitImport wasmCWriteInitImportAssignment wasmCWriteInitImportValue resolving
    cases o.pretty <;> simp [fputs]
  obtain ⟨x,xs,shape,ends⟩ : ∃ x xs, resolving o.pretty type = x :: xs ∧ ∃ c u, x = c :: u ∧ Separates c := by
    cases o.pretty with
    | true => exact ⟨_,_,rfl,32,ascii "=\n",rfl,⟨by decide,by decide⟩,by decide⟩
    | false => exact ⟨_,_,rfl,61,[],rfl,⟨by decide,by decide⟩,by decide⟩
  rw [parts,parts,shape]
  rw [shape] at whole
  refine .append ?_ (.lead (Led.leads (by decide +kernel) d) (importName_word _ _) (importName_word _ _)
    (.word (importName_word _ _) (importName_word _ _) ends (.texts (whole.reads d) (.quoted ?_))))
  · cases o.pretty with
    | true => exact .fixed (by decide +kernel) .nil
    | false => exact .nil
  · exact .fixed (by decide +kernel) (.quoted (.fixed (by decide +kernel) .nil))

theorem initHead_reads : ∃ ts, Reads d (ascii "static void " ++
    [o.moduleName ++ ascii "InitImports",ascii "(",o.moduleName ++ ascii "Instance",
      ascii "* i, void* resolve(const char* module, const char* name)) \x7b\n"].flatten) ts := by
  obtain ⟨first,start⟩ := (show Sealed (ascii "static void ") by decide +kernel).reads d
  obtain ⟨middle,paren⟩ := (show Sealed (ascii "(") by decide +kernel).reads d
  obtain ⟨last,stop⟩ := (show Sealed (ascii "* i, void* resolve(const char* module, const char* name)) \x7b\n") by decide +kernel).reads d
  have function : Word (o.moduleName ++ ascii "InitImports") := Word.join o.alphanumeric ⟨by decide,by decide⟩
  have type : Word (o.moduleName ++ ascii "Instance") := Word.join o.alphanumeric ⟨by decide,by decide⟩
  have arguments := type.before
    ⟨42,ascii " i, void* resolve(const char* module, const char* name)) \x7b\n",by decide,⟨by decide,by decide⟩,by decide⟩ stop
  have named : Reads d (o.moduleName ++ ascii "InitImports" ++ (ascii "(" ++ (o.moduleName ++ ascii "Instance" ++
      ascii "* i, void* resolve(const char* module, const char* name)) \x7b\n"))) _ :=
    function.before ⟨40,_,rfl,⟨by decide,by decide⟩,by decide⟩ (paren.append arguments)
  exact ⟨_,by simpa only [List.flatten_cons,List.flatten_nil,List.append_nil] using start.append named⟩

theorem initImports_laid (renamed : Renamed m m') : Laid d (wasmCWriteInitImports o m) (wasmCWriteInitImports o m') := by
  unfold wasmCWriteInitImports
  refine .append (.append (.append (.append (.append (.append (.texts initHead_reads .nil) ?_) ?_) ?_) ?_) ?_) ?_
  · cases o.pretty with
    | true => exact .fixed (by decide +kernel) .nil
    | false => exact .nil
  · exact .fixed (by decide +kernel) .nil
  · refine .flatMap (List.forall₂_iff_zip.mpr ⟨renamed.memoryImports,fun _ => trivial⟩) fun i i' _ => ?_
    exact initImport_laid ([ascii "wasmMemory*"]) (by cases o.pretty <;> decide +kernel) i i'
  · refine .flatMap (List.forall₂_iff_zip.mpr ⟨renamed.tableImports,fun _ => trivial⟩) fun i i' _ => ?_
    exact initImport_laid ([ascii "wasmTable*"]) (by cases o.pretty <;> decide +kernel) i i'
  · refine .flatMap renamed.globalImports fun i i' same => ?_
    unfold wasmCWriteGlobalImportType
    rw [same]
    refine initImport_laid ([ascii (valueTypeNames i'.valueType),ascii "*"]) ?_ i.toWasmImport i'.toWasmImport
    cases o.pretty <;> cases i'.valueType <;> decide +kernel
  · exact .fixed (by decide +kernel) .nil

end

-- What the rest of the translator writes: the file before, between and after the two,
-- and the other files. It writes texts that stand apart, and names in identifiers only.
structure Others (d : Dialect) where
  before : WasmModule → List Part
  between : WasmModule → List Part
  after : WasmModule → List Part
  files : List (WasmModule → List Part)
  laid : ∀ m m', Renamed m m' → ∀ writes ∈ before :: between :: after :: files, Laid d (writes m) (writes m')
  unquoted : ∀ m, ∀ writes ∈ before :: between :: after :: files, quotedNames (writes m) = []

def cFile {d : Dialect} (others : Others d) (o : Options) (m : WasmModule) : List Part :=
  others.before m ++ wasmCWriteModuleFunctionExportsArray o m ++ others.between m ++ wasmCWriteInitImports o m ++ others.after m

-- The names that the export table and the resolver calls are to hold, in order.
def importNames (imports : List WasmImport) : List (List Byte) := imports.flatMap fun i => [i.module,i.name]

def literalNames (m : WasmModule) : List (List Byte) :=
  (functionExports m).map WasmExport.name ++ importNames m.memoryImports ++ importNames m.tableImports ++
    importNames (m.globalImports.map WasmGlobalImport.toWasmImport)

-- The identifiers that names are written into, in order.
def importWords (imports : List WasmImport) : List (List Byte) :=
  imports.map fun i => wasmCWriteFileImportName (stored i.module) (stored i.name)

def identifiers {d : Dialect} (others : Others d) (o : Options) (m : WasmModule) : List (List Byte) :=
  words (others.before m) ++
    ((functionExports m).flatMap fun e => words (wasmCWriteFileFunctionUse o m e.index false o.multipleModules)) ++
    words (others.between m) ++ importWords m.memoryImports ++ importWords m.tableImports ++
    importWords (m.globalImports.map WasmGlobalImport.toWasmImport) ++ words (others.after m)

-- A literal from the byte after its first quote on is the name and ends at its last quote, whatever follows.
def Holds (d : Dialect) (written name : List Byte) : Prop :=
  ∀ after, literal d (logical d (written ++ 34 :: after)) = some (name,logical d after)

section
variable {d : Dialect} {o : Options} {m m' : WasmModule} {name : List Byte} {others : Others d}

theorem cString_stored (name : List Byte) : cString (stored name) = name.takeWhile (· != 0) := by
  have copied : ∀ b ∈ name.takeWhile (· != 0), (b != 0) = true := fun b inside => List.mem_takeWhile_imp (p := (· != 0)) inside
  unfold cString stored strncpy
  rw [List.take_length,List.append_assoc,List.takeWhile_append_of_pos copied]
  cases name.length - (name.takeWhile (· != 0)).length with
  | zero => exact List.append_nil _
  | succ k => exact List.append_nil _

theorem cString_shorter (name : List Byte) : (cString (stored name)).length ≤ name.length ∧
    ((cString (stored name)).length = name.length → cString (stored name) = name) := by
  rw [cString_stored]
  have before := List.takeWhile_prefix (· != 0) (l := name)
  exact ⟨before.length_le,before.eq_of_length⟩

theorem cString_exact : cString (stored name) = name ↔ 0 ∉ name := by
  rw [cString_stored,List.takeWhile_eq_self_iff]
  constructor
  · intro all inside
    have zero := all 0 inside
    cases zero
  · intro absent b inside
    exact bne_iff_ne.mpr fun same => absent (same ▸ inside)

theorem holds_exact : Holds d (cString (stored name)) name ↔ 0 ∉ name ∧ Faithful d name := by
  constructor
  · intro holds
    have alone := holds []
    have lengths := literal_shortens alone
    have shorter := (logical_shortens d (cString (stored name))).1
    rw [logical_quote,List.length_append,List.length_cons] at lengths
    have cut := cString_shorter name
    have whole := cut.2 (by omega)
    refine ⟨cString_exact.mp whole,?_⟩
    rw [whole] at alone
    exact literal_exact.mp alone
  · rintro ⟨whole,faithful⟩ after
    rw [cString_exact.mpr whole]
    exact literal_exact.mpr faithful

theorem uleb_nonempty (v : Nat) : 0 < (uleb v).length := by
  unfold uleb
  cases v with
  | zero => exact Nat.zero_lt_one
  | succ v =>
    rw [ulebFrom]
    split <;> exact Nat.succ_pos _

-- The reader accepts a name of any bytes, and keeps it as it is stored.
theorem wasmReadName_stored (fits : name.length < 2 ^ 32) (rest : List Byte) :
    wasmReadName (uleb name.length ++ (name ++ rest)) = some (stored name,rest) := by
  have length : (BitVec.ofNat 32 name.length).toNat = name.length := by
    rw [BitVec.toNat_ofNat,Nat.mod_eq_of_lt fits]
  have read : readUnsigned 32 (4 + 1) _ = _ := @readUnsigned_uleb 32 (name ++ rest) 4 (BitVec.ofNat 32 name.length) (by decide)
  rw [length] at read
  have copied : strncpy (name ++ rest) name.length = strncpy name name.length := by
    unfold strncpy
    rw [List.take_left,List.take_length]
  unfold wasmReadName leb128ReadU32 int32LEB128MaxByteCount
  rw [read]
  dsimp only
  rw [length,copied,List.drop_left,if_pos ⟨uleb_nonempty _,by rw [List.length_append]; omega⟩]
  rfl

-- The first byte of an import's identifier, where no prefix stands before it, is a
-- digit only if that of its module's name is.
theorem importName_first (module name : List Byte) :
    (wasmCWriteFileImportName (stored module) name).head?.any letter = !module.head?.any decimal := by
  unfold wasmCWriteFileImportName wasmCWriteFileEscaped
  rw [cString_stored]
  cases module with
  | nil => rfl
  | cons c module =>
    by_cases zero : c = 0
    · cases zero
      rfl
    · rw [List.takeWhile_cons_of_pos (p := (· != 0)) (bne_iff_ne.mpr zero),escapedAfter,
        if_neg (show ¬(none : Option Byte) = some 95 by decide)]
      by_cases underscore : c = 95
      · cases underscore
        rfl
      rw [if_neg underscore]
      by_cases plain : c ≠ 88 ∧ isalnum c = true
      · rw [if_pos plain]
        exact (show ∀ c : Byte, isalnum c = true → letter c = !decimal c by decide) c plain.2
      · have other : decimal c = false := by
          cases digit : decimal c with
          | false => rfl
          | true => exact absurd ((show ∀ c : Byte, decimal c = true → c ≠ 88 ∧ isalnum c = true by decide) c digit) plain
        rw [if_neg plain]
        show true = !decimal c
        rw [other]
        rfl

theorem quoted_import {type : List Part} (plain : quotedNames type = []) (i : WasmImport) :
    quotedNames (writeInitImport o type i) = [cString (stored i.module),cString (stored i.name)] := by
  unfold writeInitImport wasmCWriteInitImportAssignment wasmCWriteInitImportValue
  cases o.pretty <;> simp [plain]

theorem words_import {type : List Part} (plain : words type = []) (i : WasmImport) :
    words (writeInitImport o type i) = [wasmCWriteFileImportName (stored i.module) (stored i.name)] := by
  unfold writeInitImport wasmCWriteInitImportAssignment wasmCWriteInitImportValue
  cases o.pretty <;> simp [plain]

theorem quoted_array : quotedNames (wasmCWriteModuleFunctionExportsArray o m) =
    ((functionExports m).map WasmExport.name).map fun name => cString (stored name) := by
  unfold wasmCWriteModuleFunctionExportsArray wasmCWriteFileFunctionUse
  simp only [quoted_append,quoted_flatMap,quoted_fputs,quoted_text,quoted_nil,quoted_word,quoted_quoted,List.nil_append,List.append_nil,
    Bool.false_eq_true,if_false,List.map_map]
  exact List.map_eq_flatMap.symm

theorem words_array : words (wasmCWriteModuleFunctionExportsArray o m) =
    (functionExports m).flatMap fun e => words (wasmCWriteFileFunctionUse o m e.index false o.multipleModules) := by
  unfold wasmCWriteModuleFunctionExportsArray
  simp

section
variable {α : Type} {type : α → List Part}

theorem quoted_loop (imported : α → WasmImport) (plain : ∀ i, quotedNames (type i) = []) (is : List α) :
    quotedNames (is.flatMap fun i => writeInitImport o (type i) (imported i)) =
      (importNames (is.map imported)).map fun name => cString (stored name) := by
  induction is with
  | nil => rfl
  | cons i is ih =>
    rw [List.flatMap_cons,quoted_append,ih,quoted_import (plain i)]
    rfl

theorem words_loop (imported : α → WasmImport) (plain : ∀ i, words (type i) = []) (is : List α) :
    words (is.flatMap fun i => writeInitImport o (type i) (imported i)) = importWords (is.map imported) := by
  induction is with
  | nil => rfl
  | cons i is ih =>
    rw [List.flatMap_cons,words_append,ih,words_import (plain i)]
    rfl

end

theorem quoted_imports : quotedNames (wasmCWriteInitImports o m) = (importNames m.memoryImports ++ importNames m.tableImports ++
    importNames (m.globalImports.map WasmGlobalImport.toWasmImport)).map fun name => cString (stored name) := by
  have opening : quotedNames (if o.pretty then [fputs indentation] else []) = [] := by
    cases o.pretty <;> rfl
  have memories := quoted_loop (o := o) id (fun _ => show quotedNames wasmCWriteMemoryType = [] from rfl) m.memoryImports
  have tables := quoted_loop (o := o) id (fun _ => show quotedNames wasmCWriteTableType = [] from rfl) m.tableImports
  have globals := quoted_loop (o := o) WasmGlobalImport.toWasmImport
    (fun i => show quotedNames (wasmCWriteGlobalImportType i) = [] from rfl) m.globalImports
  rw [List.map_id] at memories tables
  unfold wasmCWriteInitImports
  simp only [quoted_append,opening,List.map_append]
  rw [← memories,← tables,← globals]
  exact List.append_nil _

theorem words_imports : words (wasmCWriteInitImports o m) = importWords m.memoryImports ++ importWords m.tableImports ++
    importWords (m.globalImports.map WasmGlobalImport.toWasmImport) := by
  have opening : words (if o.pretty then [fputs indentation] else []) = [] := by
    cases o.pretty <;> rfl
  have memories := words_loop (o := o) id (fun _ => show words wasmCWriteMemoryType = [] from rfl) m.memoryImports
  have tables := words_loop (o := o) id (fun _ => show words wasmCWriteTableType = [] from rfl) m.tableImports
  have globals := words_loop (o := o) WasmGlobalImport.toWasmImport
    (fun i => show words (wasmCWriteGlobalImportType i) = [] from rfl) m.globalImports
  rw [List.map_id] at memories tables
  unfold wasmCWriteInitImports
  simp only [words_append,opening]
  rw [← memories,← tables,← globals]
  exact List.append_nil _

theorem quoted_file : quotedNames (cFile others o m) = (literalNames m).map fun name => cString (stored name) := by
  have unquoted := others.unquoted m
  unfold cFile literalNames
  rw [quoted_append,quoted_append,quoted_append,quoted_append,unquoted _ (.head _),unquoted _ (.tail _ (.head _)),
    unquoted _ (.tail _ (.tail _ (.head _))),quoted_array,quoted_imports]
  simp only [List.nil_append,List.append_nil,List.map_append,List.append_assoc]

theorem words_file : words (cFile others o m) = identifiers others o m := by
  unfold cFile identifiers
  rw [words_append,words_append,words_append,words_append,words_array,words_imports]
  simp only [List.append_assoc]

theorem holds_all : List.Forall₂ (Holds d) (quotedNames (cFile others o m)) (literalNames m) ↔
    ∀ name ∈ literalNames m, 0 ∉ name ∧ Faithful d name := by
  rw [quoted_file,List.forall₂_map_left_iff,List.forall₂_same]
  exact forall₂_congr fun name _ => holds_exact

theorem cFile_laid (renamed : Renamed m m') : Laid d (cFile others o m) (cFile others o m') := by
  have laid := others.laid m m' renamed
  exact ((((laid _ (.head _)).append (exportsArray_laid renamed)).append (laid _ (.tail _ (.head _)))).append
    (initImports_laid renamed)).append (laid _ (.tail _ (.tail _ (.head _))))

theorem quoted_faithful (clean : ∀ name ∈ literalNames m, 0 ∉ name ∧ Faithful d name) :
    ∀ n, .quoted n ∈ cFile others o m → Faithful d n := by
  intro n inside
  have listed := quoted_known inside
  rw [quoted_file] at listed
  obtain ⟨name,known,rfl⟩ := List.mem_map.mp listed
  rw [cString_exact.mpr (clean name known).1]
  exact (clean name known).2

theorem others_faithful {writes : WasmModule → List Part} (other : writes ∈ others.files) : ∀ n, .quoted n ∈ writes m → Faithful d n := by
  intro n inside
  have listed := quoted_known inside
  rw [others.unquoted m writes (.tail _ (.tail _ (.tail _ other)))] at listed
  cases listed

end

-- Every identifier that a name is written into, in the file of the two and in the other files.
def NamedAlike {d : Dialect} (others : Others d) (o : Options) (m m' : WasmModule) : Prop :=
  List.Forall₂ Named (identifiers others o m) (identifiers others o m') ∧
    ∀ writes ∈ others.files, List.Forall₂ Named (words (writes m)) (words (writes m'))

-- Every literal of the two modules holds its name, and their files differ in names only.
def NamesContained {d : Dialect} (others : Others d) (o : Options) (m m' : WasmModule) : Prop :=
  List.Forall₂ (Holds d) (quotedNames (cFile others o m)) (literalNames m) ∧
    List.Forall₂ (Holds d) (quotedNames (cFile others o m')) (literalNames m') ∧
    Alike d (cFile others o m) (cFile others o m') ∧ ∀ writes ∈ others.files, Alike d (writes m) (writes m')

namespace Controls

def strict : Dialect := ⟨true,true⟩
def options : Options := ⟨ascii "m",by decide,false,false⟩

-- The translation of a module that has functions without parameters or results in
-- its imports and exports, and memories in its imports, and nothing else.
def exported (e : WasmExport) : List Part :=
  [fputs "void ",.word (ascii "m_" ++ wasmCWriteFileEscaped (stored e.name)),fputs "(mInstance*i)"]

def before (_ : WasmModule) : List Part :=
  [fputs "#include ",.text (ascii "\"w2c2_base.h\""),fputs "\n\n#include ",.text (ascii "\"m.h\""),fputs "\n\n"]

def instances : List String :=
  ["mInstance* mNewChild(mInstance* self) \x7b\n","mInstance* child = (mInstance*)calloc(1, sizeof(mInstance));\n",
    "child->common.funcExports = self->common.funcExports;\n","child->common.resolveImports = self->common.resolveImports;\n",
    "child->common.newChild = self->common.newChild;\n","mInitImports(child, self->common.resolveImports);\nreturn child;\n\x7d\n\n",
    "void mInstantiate(mInstance* i, void* resolveImports(","const char* module, const char* name)) \x7b\n",
    "i->common.funcExports = mFuncExports;\ni->common.resolveImports = resolveImports;\n",
    "i->common.newChild = (struct wasmModuleInstance* (*)(","struct wasmModuleInstance*))mNewChild;\n",
    "mInitImports(i, resolveImports);\n\x7d\n\n","void mFreeInstance(mInstance* i) \x7b\n\x7d\n\n"]

def after (m : WasmModule) : List Part :=
  (functionExports m).flatMap (fun e => exported e ++ [fputs "\x7b\n"] ++ wasmCWriteFileFunctionUse options m e.index false false ++
    [fputs "(i);\n\x7d\n\n"]) ++ instances.map fputs

def declarations : List String :=
  ["void mInstantiate(mInstance* instance, void* resolve(","const char* module, const char* name));\n\n",
    "void mFreeInstance(mInstance* instance);\n\n","#ifdef __cplusplus\n\x7d\n#endif\n\n#endif /* m_H */\n\n"]

def header (m : WasmModule) : List Part :=
  [fputs "#ifndef m_H\n#define m_H\n\n#ifdef __cplusplus\nextern ",.text (ascii "\"C\""),fputs " \x7b\n#endif\n\n#include ",
    .text (ascii "\"w2c2_base.h\""),fputs "\n\ntypedef struct mInstance \x7b\n",fputs "wasmModuleInstance common;\n"] ++
  m.memoryImports.flatMap (fun i =>
    [fputs "wasmMemory*",.word (wasmCWriteFileImportName (stored i.module) (stored i.name)),fputs ";\n"]) ++
  [fputs "\x7d mInstance;\n\n"] ++
  m.functionImports.flatMap (fun i =>
    [fputs "void ",.word (wasmCWriteFileImportName (stored i.module) (stored i.name)),fputs "(void*);\n\n"]) ++
  (functionExports m).flatMap (fun e => exported e ++ [fputs ";\n\n"]) ++ declarations.map fputs

section
variable {d : Dialect} {m m' : WasmModule}

theorem importUse_laid {t u : List Byte} (leads : Led t) (ends : ∃ c v, u = c :: v ∧ Separates c) (reads : Sealed u) (i i' : WasmImport) :
    Laid d [.text t,.word (wasmCWriteFileImportName (stored i.module) (stored i.name)),.text u]
      [.text t,.word (wasmCWriteFileImportName (stored i'.module) (stored i'.name)),.text u] :=
  .lead (leads.leads d) (importName_word _ _) (importName_word _ _)
    (.word (importName_word _ _) (importName_word _ _) ends (.fixed reads .nil))

theorem exported_laid (e e' : WasmExport) : Laid d (exported e) (exported e') := by
  have word : ∀ e : WasmExport, Word (ascii "m_" ++ wasmCWriteFileEscaped (stored e.name)) := by
    refine fun e => ⟨fun none => absurd (List.append_eq_nil_iff.mp none).1 (by decide),fun b inside => ?_⟩
    rcases List.mem_append.mp inside with own | escaped
    · exact (show ∀ b ∈ ascii "m_", part b = true by decide) b own
    · exact escapedAfter_parts b escaped
  exact .fixed (by decide +kernel) (.word (word e) (word e') ⟨40,_,rfl,⟨by decide,by decide⟩,by decide⟩
    (.fixed (by decide +kernel) .nil))

theorem strings_laid {texts : List String} (each : ∀ s ∈ texts, Sealed (ascii s)) : Laid d (texts.map fputs) (texts.map fputs) := by
  induction texts with
  | nil => exact .nil
  | cons s texts ih => exact .fixed (each s (.head _)) (ih fun t inside => each t (.tail _ inside))

theorem header_reads (name : List Byte) (parts : ∀ b ∈ name, part b = true ∨ b = 46) : ∃ ts, Reads d (34 :: (name ++ [34])) ts := by
  have apart : ∀ c, part c = false → c ≠ 46 → c ∉ name := by
    intro c other dot inside
    rcases parts c inside with named | same
    · rw [named] at other
      cases other
    · exact dot same
  have plain : Plain d name := by
    refine ⟨apart 34 (by decide) (by decide),apart 92 (by decide) (by decide),fun b inside => ?_⟩
    unfold Dialect.newline
    rw [beq_false_of_ne fun same : b = 10 => apart 10 (by decide) (by decide) (same ▸ inside),
      beq_false_of_ne fun same : b = 13 => apart 13 (by decide) (by decide) (same ▸ inside)]
    rfl
  exact ⟨_,literal_reading (plain.faithful (apart 63 (by decide) (by decide)))⟩

theorem before_laid : Laid d (before m) (before m') :=
  .fixed (by decide +kernel) (.text (header_reads (ascii "w2c2_base.h") (by decide))
    (.fixed (by decide +kernel) (.text (header_reads (ascii "m.h") (by decide)) (.fixed (by decide +kernel) .nil))))

theorem after_laid (renamed : Renamed m m') : Laid d (after m) (after m') := by
  refine .append (.flatMap renamed.functionExports ?_) (strings_laid (by decide +kernel))
  rintro e e' ⟨_,index⟩
  rw [index]
  obtain ⟨w,written,word⟩ := functionUse_word options m e'.index false
  obtain ⟨w',written',word'⟩ := functionUse_word options m' e'.index false
  rw [written,written']
  simp only [List.append_assoc]
  refine .append (exported_laid e e') (.fixed (by decide +kernel) ?_)
  exact .word word word' ⟨40,ascii "i);\n\x7d\n\n",rfl,⟨by decide,by decide⟩,by decide⟩ (.fixed (by decide +kernel) .nil)

theorem header_laid (renamed : Renamed m m') : Laid d (header m) (header m') := by
  refine .append (.append (.append (.append (.append ?_
    (.flatMap (List.forall₂_iff_zip.mpr ⟨renamed.memoryImports,fun _ => trivial⟩) ?_)) ?_)
    (.flatMap (List.forall₂_iff_zip.mpr ⟨renamed.functionImports,fun _ => trivial⟩) ?_)) (.flatMap renamed.functionExports ?_))
    (strings_laid (by decide +kernel))
  · exact .fixed (by decide +kernel) (.text (header_reads (ascii "C") (by decide))
      (.fixed (by decide +kernel) (.text (header_reads (ascii "w2c2_base.h") (by decide)) (.fixed (by decide +kernel)
        (.fixed (by decide +kernel) .nil)))))
  · exact fun i i' _ => importUse_laid (by decide +kernel) ⟨59,ascii "\n",rfl,⟨by decide,by decide⟩,by decide⟩ (by decide) i i'
  · exact .fixed (by decide +kernel) .nil
  · exact fun i i' _ => importUse_laid (by decide +kernel) ⟨40,ascii "void*);\n\n",rfl,⟨by decide,by decide⟩,by decide⟩ (by decide) i i'
  · exact fun e e' _ => (exported_laid e e').append (.fixed (by decide +kernel) .nil)

theorem unquoted (m : WasmModule) : ∀ writes ∈ [before,fun _ => [],after,header], quotedNames (writes m) = [] := by
  have strings : ∀ texts : List String, quotedNames (texts.map fputs) = [] := by
    intro texts
    induction texts with
    | nil => rfl
    | cons s texts ih => exact ih
  intro writes known
  simp only [List.mem_cons,List.not_mem_nil,or_false] at known
  rcases known with rfl | rfl | rfl | rfl
  · rfl
  · rfl
  · simp [after,exported,wasmCWriteFileFunctionUse,strings]
  · simp [header,exported,strings]

end

def others : Others strict where
  before := before
  between := fun _ => []
  after := after
  files := [header]
  laid := by
    intro m m' renamed writes known
    simp only [List.mem_cons,List.not_mem_nil,or_false] at known
    rcases known with rfl | rfl | rfl | rfl
    · exact before_laid
    · exact .nil
    · exact after_laid renamed
    · exact header_laid renamed
  unquoted := unquoted

-- The imports env.run and env.memory under other names, and the export of the first.
def reexport (env run memory name : String) : WasmModule :=
  ⟨[⟨ascii env,ascii run⟩],[⟨ascii env,ascii memory⟩],[],[],[⟨.function,0,ascii name⟩]⟩

theorem reexport_renamed (env env' run run' memory memory' name name' : String) :
    Renamed (reexport env run memory name) (reexport env' run' memory' name') :=
  ⟨rfl,rfl,rfl,.nil,.cons ⟨rfl,rfl⟩ .nil⟩

def plain : WasmModule := reexport "env" "run" "memory" "run"
def spaced : WasmModule := reexport "host" "go!" "ram" "a b"
def hostile : WasmModule := reexport "env" "run" "memory" "a\"b"

end Controls

end SandboxStack.NameText
