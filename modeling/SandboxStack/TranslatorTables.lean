import SandboxStack.CInteger

namespace SandboxStack.Translator

inductive WasmValueType where
  | i32 | i64 | f32 | f64
  deriving DecidableEq, Repr

structure WasmFunctionType where
  parameterTypes : List WasmValueType
  resultTypes : List WasmValueType
  deriving DecidableEq, Repr

def wasmEmptyFunctionType : WasmFunctionType := ⟨[],[]⟩

-- An initialiser expression: a constant, or the value of a global.
inductive ConstantExpr where
  | i32Const (value : U32)
  | globalGet (globalIndex : Nat)
  deriving DecidableEq, Repr

structure WasmElementSegment where
  tableIndex : Nat
  offset : ConstantExpr
  functionIndices : List Nat
  deriving Repr

structure WasmTable where
  min : U32
  max : U32
  deriving Repr

-- The parts of a read module that table initialisation and call_indirect use.
-- An import or a function is its function type index.
structure WasmModule where
  functionTypes : List WasmFunctionType
  functionImports : List Nat
  functions : List Nat
  tableImports : List WasmTable
  tables : List WasmTable
  elementSegments : List WasmElementSegment

def WasmModule.functionType (module : WasmModule) (index : Nat) : WasmFunctionType :=
  module.functionTypes.getD index wasmEmptyFunctionType

-- The two counted loops: equal counts, then equal entries.
def sameTypes (u t : List WasmValueType) : Bool :=
  (List.range t.length).all fun k => u[k]? == t[k]?

def sameFunctionType (u t : WasmFunctionType) : Bool :=
  u.parameterTypes.length == t.parameterTypes.length && u.resultTypes.length == t.resultTypes.length &&
    sameTypes u.parameterTypes t.parameterTypes && sameTypes u.resultTypes t.resultTypes

theorem sameTypes_exact {u t : List WasmValueType} (length : u.length = t.length) :
    sameTypes u t = true ↔ u = t := by
  constructor
  · intro same
    apply List.ext_getElem? 
    intro k
    by_cases inside : k < t.length
    · have entry := List.all_eq_true.mp same k (List.mem_range.mpr inside)
      exact eq_of_beq entry
    · rw [List.getElem?_eq_none (by omega),List.getElem?_eq_none (by omega)]
  · rintro rfl
    simp [sameTypes]

theorem sameFunctionType_exact (u t : WasmFunctionType) : sameFunctionType u t = true ↔ u = t := by
  obtain ⟨params,results⟩ := u
  obtain ⟨params',results'⟩ := t
  simp only [sameFunctionType,Bool.and_eq_true,beq_iff_eq,WasmFunctionType.mk.injEq]
  constructor
  · rintro ⟨⟨⟨count,count'⟩,one⟩,two⟩
    exact ⟨(sameTypes_exact count).mp one,(sameTypes_exact count').mp two⟩
  · rintro ⟨rfl,rfl⟩
    exact ⟨⟨⟨rfl,rfl⟩,(sameTypes_exact rfl).mpr rfl⟩,(sameTypes_exact rfl).mpr rfl⟩

-- canonical function type id = index of the first structurally equal type
def wasmCanonicalFunctionTypeIndex (module : WasmModule) (functionTypeIndex : Nat) : Nat :=
  ((List.range functionTypeIndex).find? fun j =>
    sameFunctionType (module.functionType j) (module.functionType functionTypeIndex)).getD functionTypeIndex

def wasmCanonicalFunctionTypeIndexOfFunction (module : WasmModule) (functionIndex : Nat) : Nat :=
  let functionImportCount := module.functionImports.length
  if functionIndex < functionImportCount then
    wasmCanonicalFunctionTypeIndex module (module.functionImports.getD functionIndex 0)
  else
    wasmCanonicalFunctionTypeIndex module (module.functions.getD (functionIndex - functionImportCount) 0)

-- wasmModuleGetFunctionType: the type a function is declared with.
def wasmModuleGetFunctionType (module : WasmModule) (functionIndex : Nat) : Option WasmFunctionType :=
  if functionIndex < module.functionImports.length then
    some (module.functionType (module.functionImports.getD functionIndex 0))
  else if functionIndex - module.functionImports.length < module.functions.length then
    some (module.functionType (module.functions.getD (functionIndex - module.functionImports.length) 0))
  else none

theorem canonical_first (module : WasmModule) (index : Nat) :
    module.functionType (wasmCanonicalFunctionTypeIndex module index) = module.functionType index ∧
      ∀ j < wasmCanonicalFunctionTypeIndex module index, module.functionType j ≠ module.functionType index := by
  unfold wasmCanonicalFunctionTypeIndex
  cases found : (List.range index).find? fun j =>
      sameFunctionType (module.functionType j) (module.functionType index) with
  | none =>
    refine ⟨rfl,fun j below same => ?_⟩
    have missed := List.find?_eq_none.mp found j (List.mem_range.mpr below)
    exact missed ((sameFunctionType_exact _ _).mpr same)
  | some i =>
    obtain ⟨equal,before⟩ := List.find?_range_eq_some.mp found
    refine ⟨(sameFunctionType_exact _ _).mp equal,fun j below same => ?_⟩
    have missed := before.2 j below
    rw [(sameFunctionType_exact _ _).mpr same] at missed
    cases missed

theorem canonical_structural (module : WasmModule) (a b : Nat) :
    wasmCanonicalFunctionTypeIndex module a = wasmCanonicalFunctionTypeIndex module b ↔
      module.functionType a = module.functionType b := by
  have one := canonical_first module a
  have two := canonical_first module b
  constructor
  · intro same
    rw [← one.1,same,two.1]
  · intro same
    -- neither first index can lie below the other
    apply Nat.le_antisymm
    · refine Nat.not_lt.mp fun below => one.2 _ below ?_
      rw [two.1,same]
    · refine Nat.not_lt.mp fun below => two.2 _ below ?_
      rw [one.1,same]

theorem canonical_function {module : WasmModule} {functionIndex : Nat} {t : WasmFunctionType}
    (declared : wasmModuleGetFunctionType module functionIndex = some t) (index : Nat) :
    wasmCanonicalFunctionTypeIndexOfFunction module functionIndex = wasmCanonicalFunctionTypeIndex module index ↔
      t = module.functionType index := by
  unfold wasmModuleGetFunctionType at declared
  unfold wasmCanonicalFunctionTypeIndexOfFunction
  dsimp only
  split at declared
  · rename_i imported
    cases declared
    rw [if_pos imported]
    exact canonical_structural module _ _
  · rename_i own
    rw [if_neg own]
    split at declared
    · cases declared
      exact canonical_structural module _ _
    · cases declared

-- The statements of the generated InitTables function, in printing order.
inductive TableStatement where
  | tableAllocate (table : Nat) (min max : U32)
  | setOffset (value : ConstantExpr)
  | tableInit (table : Nat) (count : U32)
  | setData (table n functionIndex : Nat)
  | setType (table n id : Nat)
  deriving DecidableEq, Repr

def writeTableAllocations (module : WasmModule) : List TableStatement :=
  module.tables.mapIdx fun tableIndex table =>
    .tableAllocate (module.tableImports.length + tableIndex) table.min table.max

def writeElements (module : WasmModule) (tableIndex : Nat) : Nat → List Nat → List TableStatement
  | _,[] => []
  | functionIndexIndex,functionIndex :: rest =>
    .setData tableIndex functionIndexIndex functionIndex ::
    .setType tableIndex functionIndexIndex (wasmCanonicalFunctionTypeIndexOfFunction module functionIndex) ::
    writeElements module tableIndex (functionIndexIndex + 1) rest

def writeElementSegment (module : WasmModule) (segment : WasmElementSegment) : List TableStatement :=
  .setOffset segment.offset ::
  .tableInit segment.tableIndex (BitVec.ofNat 32 segment.functionIndices.length) ::
  writeElements module segment.tableIndex 0 segment.functionIndices

def wasmCWriteInitTables (module : WasmModule) : List TableStatement :=
  writeTableAllocations module ++ module.elementSegments.flatMap (writeElementSegment module)

-- TF(table, index, id, type): the index operand is a run-time value.
structure CallIndirect where
  tableIndex : Nat
  typeId : Nat
  deriving DecidableEq, Repr

def wasmCWriteCallIndirectExpr (module : WasmModule) (tableIndex functionTypeIndex : Nat) : CallIndirect :=
  ⟨tableIndex,wasmCanonicalFunctionTypeIndex module functionTypeIndex⟩

end SandboxStack.Translator
