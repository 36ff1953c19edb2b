import SandboxStack.RuntimeMemory
import SandboxStack.TranslatorTables

namespace SandboxStack.Runtime
open Trapping Translator

-- `data` says whether the pointers are set. There is one static arena behind
-- every allocated table.
structure TableRecord where
  data : Bool
  size : U32
  maxSize : U32
  deriving DecidableEq, Repr

def TableRecord.empty : TableRecord := ⟨false,0,0⟩

-- A function reference is its function index; `none` is a null slot. `offset`
-- is the local variable of the generated InitTables function.
structure TableState where
  tables : Nat → TableRecord
  wasmTableArena : Nat → Option Nat
  wasmTableTypesArena : Nat → Nat
  offset : U32

inductive TableStop where
  | trap (reason : Trap)
  | nullPointer
  deriving DecidableEq, Repr

abbrev TableRun := Trapping.Run TableStop TableState

def clampTable (arenaSize maxSize : U32) : U32 := if maxSize > arenaSize then arenaSize else maxSize

def allocateRecord (arenaSize : U32) (t : TableRecord) (size maxSize : U32) : Option TableRecord :=
  if t.data ∨ size > clampTable arenaSize maxSize then none
  else some ⟨true,size,clampTable arenaSize maxSize⟩

def wasmTableAllocate (arenaSize : U32) (table : Nat) (size maxSize : U32) : TableRun Unit := do
  let s ← Trapping.Run.get
  match allocateRecord arenaSize (s.tables table) size maxSize with
  | none => Trapping.Run.stop (.trap .allocationFailed)
  | some t => Trapping.Run.modify fun s => {s with tables := Function.update s.tables table t}

def wasmTableInit (t : TableRecord) (offset count : U32) : TableRun Unit :=
  if CInteger.exceeds offset count t.size then Trapping.Run.stop (.trap .outOfBoundsTable) else pure ()

def wasmTableGet (t : TableRecord) (i : U32) (expectedType : Nat) : TableRun Nat := do
  let s ← Trapping.Run.get
  if i ≥ t.size then Trapping.Run.stop (.trap .outOfBoundsTable) else
  match s.wasmTableArena i.toNat with
  | none => Trapping.Run.stop (.trap .nullFunction)
  | some f =>
    if s.wasmTableTypesArena i.toNat ≠ expectedType then Trapping.Run.stop (.trap .indirectCallTypeMismatch)
    else return f

def callIndirect (call : CallIndirect) (i : U32) : TableRun Nat := do
  let s ← Trapping.Run.get
  wasmTableGet (s.tables call.tableIndex) i call.typeId

-- `.data[offset + n]` is computed in U32.
def slot (offset : U32) (n : Nat) : Nat := (offset + BitVec.ofNat 32 n).toNat

def ConstantExpr.value (globals : Nat → U32) : ConstantExpr → U32
  | .i32Const v => v
  | .globalGet index => globals index

-- A write through the data or types pointer of a table.
def writeThrough (table : Nat) (update : TableState → TableState) : TableRun Unit := do
  let s ← Trapping.Run.get
  if (s.tables table).data then Trapping.Run.modify update else Trapping.Run.stop .nullPointer

def checkSegment (table : Nat) (count : U32) : TableRun Unit := do
  let s ← Trapping.Run.get
  wasmTableInit (s.tables table) s.offset count

def execute (arenaSize : U32) (globals : Nat → U32) : TableStatement → TableRun Unit
  | .tableAllocate table min max => wasmTableAllocate arenaSize table min max
  | .setOffset value => Trapping.Run.modify fun s => {s with offset := ConstantExpr.value globals value}
  | .tableInit table count => checkSegment table count
  | .setData table n functionIndex => writeThrough table fun s => {s with
      wasmTableArena := Function.update s.wasmTableArena (slot s.offset n) (some functionIndex)}
  | .setType table n id => writeThrough table fun s => {s with
      wasmTableTypesArena := Function.update s.wasmTableTypesArena (slot s.offset n) id}

def executeAll (arenaSize : U32) (globals : Nat → U32) : List TableStatement → TableRun Unit
  | [] => pure ()
  | statement :: rest => do
    execute arenaSize globals statement
    executeAll arenaSize globals rest

-- A table record before instantiation: static zeros, or for an import what the
-- embedder made with wasmTableAllocate.
def Provided (arenaSize : U32) (t : TableRecord) : Prop :=
  t = .empty ∨ ∃ size maxSize, allocateRecord arenaSize .empty size maxSize = some t

structure Fresh (arenaSize : U32) (module : WasmModule) (s : TableState) : Prop where
  own : ∀ t, module.tableImports.length ≤ t → s.tables t = .empty
  imported : ∀ t < module.tableImports.length, Provided arenaSize (s.tables t)
  null : ∀ j, s.wasmTableArena j = none

end SandboxStack.Runtime
