import SandboxStack.IndirectCalls

namespace SandboxStack.TableInstantiation
open Trapping Translator SandboxStack.Runtime IndirectCalls

-- The slots a list of entries fills, counted from a first one.
def filled (indices : List Nat) (first i : Nat) : Option Nat := if first ≤ i then indices[i - first]? else none

section
variable (globals : Nat → U32)

def segmentOffset (segment : WasmElementSegment) : Nat := (ConstantExpr.value globals segment.offset).toNat

-- The function a segment puts into a slot number.
def covered (segment : WasmElementSegment) (i : Nat) : Option Nat :=
  filled segment.functionIndices (segmentOffset globals segment) i

-- The last segment that targets the table and covers the slot.
def given (segments : List WasmElementSegment) (table i : Nat) : Option Nat :=
  segments.reverse.findSome? fun segment => if segment.tableIndex = table then covered globals segment i else none

def Fits (sizes : Nat → Nat) (segment : WasmElementSegment) : Prop :=
  segmentOffset globals segment + segment.functionIndices.length ≤ sizes segment.tableIndex

-- No entry lands on a slot number of another table.
def Apart (sizes : Nat → Nat) (segment : WasmElementSegment) : Prop :=
  ∀ n < segment.functionIndices.length, ∀ table ≠ segment.tableIndex,
    sizes table ≤ segmentOffset globals segment + n

end

-- Slot `i` of a table, through its data pointer.
def tableSlot (s : TableState) (table i : Nat) : Option Nat :=
  if (s.tables table).data then s.wasmTableArena i else none

-- The sizes instantiation gives the tables: an import keeps its own.
def tableSizes (module : WasmModule) (start : TableState) (table : Nat) : Nat :=
  if table < module.tableImports.length then (start.tables table).size.toNat
  else ((module.tables[table - module.tableImports.length]?).map fun t => t.min.toNat).getD 0

def Allocates (arenaSize : U32) (tables : List WasmTable) : Prop :=
  ∀ t ∈ tables, t.min ≤ clampTable arenaSize t.max

-- The counts the reader delivers are 32-bit numbers.
def Counted (module : WasmModule) : Prop :=
  ∀ segment ∈ module.elementSegments, segment.functionIndices.length < 2 ^ 32

-- The statements up to a segment.
def writtenBefore (module : WasmModule) (segments : List WasmElementSegment) : List TableStatement :=
  writeTableAllocations module ++ segments.flatMap (writeElementSegment module)

structure Instantiates (arenaSize : U32) (globals : Nat → U32) (module : WasmModule) (start : TableState) : Prop where
  final : ∀ s, executeAll arenaSize globals (wasmCWriteInitTables module) start = .done () s →
    ∀ table i, i < (s.tables table).size.toNat → tableSlot s table i = given globals module.elementSegments table i
  framed : ∀ before segment rest, module.elementSegments = before ++ segment :: rest → ∀ s s',
    executeAll arenaSize globals (writtenBefore module before) start = .done () s →
    executeAll arenaSize globals (writeElementSegment module segment) s = .done () s' →
    ∀ table ≠ segment.tableIndex, ∀ i < (s.tables table).size.toNat, tableSlot s' table i = tableSlot s table i
  trapped : ∀ before segment rest, module.elementSegments = before ++ segment :: rest → ∀ s,
    executeAll arenaSize globals (writtenBefore module before) start = .done () s →
    (s.tables segment.tableIndex).size.toNat < segmentOffset globals segment + segment.functionIndices.length →
    ∃ s', executeAll arenaSize globals (writeElementSegment module segment) s =
        .stopped (.trap .outOfBoundsTable) s' ∧ s'.wasmTableArena = s.wasmTableArena ∧
      s'.wasmTableTypesArena = s.wasmTableTypesArena

section
variable {arenaSize : U32} {globals : Nat → U32} {module : WasmModule} {s s' : TableState}

theorem executeAll_step {statement : TableStatement} {rest : List TableStatement}
    (ran : execute arenaSize globals statement s = .done () s') :
    executeAll arenaSize globals (statement :: rest) s = executeAll arenaSize globals rest s' := by
  rw [executeAll,Run.bind_done ran]

theorem executeAll_after {one two : List TableStatement} (ran : executeAll arenaSize globals one s = .done () s') :
    executeAll arenaSize globals (one ++ two) s = executeAll arenaSize globals two s' := by
  rw [executeAll_append,Run.bind_done ran]

theorem writeThrough_runs {table : Nat} {update : TableState → TableState} (set : (s.tables table).data = true) :
    writeThrough table update s = .done () (update s) := by
  unfold writeThrough
  rw [Run.bind_done (Run.get_apply s),if_pos set]
  rfl

theorem slot_exact {offset : U32} {n : Nat} (below : offset.toNat + n < 2 ^ 32) : slot offset n = offset.toNat + n := by
  have small : (BitVec.ofNat 32 n).toNat = n := by simp only [BitVec.toNat_ofNat]; omega
  unfold slot
  rw [CInteger.add_exact (by rw [small]; exact below),small]

theorem filled_cons {f first : Nat} {rest : List Nat} {arena : Nat → Option Nat} :
    (fun i => (filled rest (first + 1) i).or (Function.update arena first (some f) i)) =
      fun i => (filled (f :: rest) first i).or (arena i) := by
  funext i
  unfold filled
  rcases Nat.lt_trichotomy i first with below | rfl | above
  · rw [if_neg (by omega),if_neg (by omega),Function.update_of_ne (by omega)]
  · rw [if_neg (by omega),if_pos (by omega)]
    simp
  · obtain ⟨k,rfl⟩ := Nat.exists_eq_add_of_lt above
    rw [if_pos (by omega),if_pos (by omega),Function.update_of_ne (by omega)]
    rw [show first + k + 1 - (first + 1) = k by omega,show first + k + 1 - first = k + 1 by omega]
    rfl

theorem elements_run (arenaSize : U32) (globals : Nat → U32) (module : WasmModule) (table first : Nat) {indices : List Nat} (set : indices ≠ [] → (s.tables table).data = true)
    (room : s.offset.toNat + first + indices.length ≤ 2 ^ 32) :
    ∃ types, executeAll arenaSize globals (writeElements module table first indices) s = .done () {s with
      wasmTableArena := fun i => (filled indices (s.offset.toNat + first) i).or (s.wasmTableArena i)
      wasmTableTypesArena := types} := by
  induction indices generalizing s first with
  | nil =>
    refine ⟨s.wasmTableTypesArena,?_⟩
    simp [writeElements,executeAll,filled]
  | cons f rest ih =>
    simp only [List.length_cons] at room
    have pointer := set (by simp)
    have here : slot s.offset first = s.offset.toNat + first := slot_exact (by omega)
    have data : execute arenaSize globals (.setData table first f) s = .done () _ := writeThrough_runs pointer
    rw [writeElements,executeAll_step data]
    have type : execute arenaSize globals (.setType table first (wasmCanonicalFunctionTypeIndexOfFunction module f))
        {s with wasmTableArena := Function.update s.wasmTableArena (slot s.offset first) (some f)} = .done () _ :=
      writeThrough_runs pointer
    rw [executeAll_step type]
    obtain ⟨types,ran⟩ := ih (first + 1) (s := {s with
        wasmTableArena := Function.update s.wasmTableArena (slot s.offset first) (some f)
        wasmTableTypesArena := Function.update s.wasmTableTypesArena (slot s.offset first)
          (wasmCanonicalFunctionTypeIndexOfFunction module f)})
      (fun _ => pointer) (by dsimp only; omega)
    refine ⟨types,?_⟩
    rw [ran]
    simp only [here,← Nat.add_assoc,filled_cons]

-- A table with slots has its pointers set.
def Pointed (s : TableState) : Prop := ∀ table, (s.tables table).data = false → (s.tables table).size = 0

theorem segment_runs (arenaSize : U32) (module : WasmModule) {segment : WasmElementSegment} (pointed : Pointed s)
    (counted : segment.functionIndices.length < 2 ^ 32)
    (fits : Fits globals (fun table => (s.tables table).size.toNat) segment) :
    ∃ types offset, executeAll arenaSize globals (writeElementSegment module segment) s = .done () {s with
      wasmTableArena := fun i => (covered globals segment i).or (s.wasmTableArena i)
      wasmTableTypesArena := types,offset := offset} := by
  have count : (BitVec.ofNat 32 segment.functionIndices.length).toNat = segment.functionIndices.length := by
    rw [BitVec.toNat_ofNat,Nat.mod_eq_of_lt counted]
  have moved : execute arenaSize globals (.setOffset segment.offset) s =
      .done () {s with offset := ConstantExpr.value globals segment.offset} := rfl
  have checked : execute arenaSize globals
      (.tableInit segment.tableIndex (BitVec.ofNat 32 segment.functionIndices.length))
      {s with offset := ConstantExpr.value globals segment.offset} =
        .done () {s with offset := ConstantExpr.value globals segment.offset} := by
    have inside := (CInteger.exceeds_false (ConstantExpr.value globals segment.offset)
      (BitVec.ofNat 32 segment.functionIndices.length) (s.tables segment.tableIndex).size).mpr (by rwa [count])
    show checkSegment _ _ _ = _
    unfold checkSegment wasmTableInit
    rw [Run.bind_done (Run.get_apply _)]
    simp only [inside]
    rfl
  have size := (s.tables segment.tableIndex).size.isLt
  have bound : segmentOffset globals segment + segment.functionIndices.length ≤
    (s.tables segment.tableIndex).size.toNat := fits
  have pointer : segment.functionIndices ≠ [] → (s.tables segment.tableIndex).data = true := by
    intro filled
    cases unset : (s.tables segment.tableIndex).data with
    | true => rfl
    | false =>
      have positive := List.length_pos_iff.mpr filled
      have none : (0 : U32).toNat = 0 := rfl
      rw [pointed _ unset,none] at bound
      omega
  have room : (ConstantExpr.value globals segment.offset).toNat + 0 + segment.functionIndices.length ≤ 2 ^ 32 := by
    unfold segmentOffset at bound
    omega
  obtain ⟨types,ran⟩ := elements_run arenaSize globals module segment.tableIndex 0
    (s := {s with offset := ConstantExpr.value globals segment.offset}) pointer room
  refine ⟨types,ConstantExpr.value globals segment.offset,?_⟩
  rw [writeElementSegment,executeAll_step moved,executeAll_step checked,ran]
  rfl

theorem segment_traps {segment : WasmElementSegment} (counted : segment.functionIndices.length < 2 ^ 32)
    (exceeds : ¬Fits globals (fun table => (s.tables table).size.toNat) segment) :
    executeAll arenaSize globals (writeElementSegment module segment) s =
      .stopped (.trap .outOfBoundsTable) {s with offset := ConstantExpr.value globals segment.offset} := by
  have count : (BitVec.ofNat 32 segment.functionIndices.length).toNat = segment.functionIndices.length := by
    rw [BitVec.toNat_ofNat,Nat.mod_eq_of_lt counted]
  have moved : execute arenaSize globals (.setOffset segment.offset) s =
      .done () {s with offset := ConstantExpr.value globals segment.offset} := rfl
  have beyond := (CInteger.exceeds_exact (ConstantExpr.value globals segment.offset)
    (BitVec.ofNat 32 segment.functionIndices.length) (s.tables segment.tableIndex).size).mpr
      (by rw [count]; exact Nat.not_le.mp exceeds)
  have stops : execute arenaSize globals
      (.tableInit segment.tableIndex (BitVec.ofNat 32 segment.functionIndices.length))
      {s with offset := ConstantExpr.value globals segment.offset} =
        .stopped (.trap .outOfBoundsTable) {s with offset := ConstantExpr.value globals segment.offset} := by
    show checkSegment _ _ _ = _
    unfold checkSegment wasmTableInit
    rw [Run.bind_done (Run.get_apply _)]
    simp only [beyond]
    rfl
  rw [writeElementSegment,executeAll_step moved,executeAll,Run.bind_stopped stops]

-- The last segment of a list that covers an arena slot, whatever its table.
def laid (globals : Nat → U32) (segments : List WasmElementSegment) (i : Nat) : Option Nat :=
  segments.reverse.findSome? fun segment => covered globals segment i

theorem laid_cons (segment : WasmElementSegment) (rest : List WasmElementSegment) (i : Nat) :
    laid globals (segment :: rest) i = (laid globals rest i).or (covered globals segment i) := by
  simp [laid,List.findSome?_append]

theorem segments_run (arenaSize : U32) (module : WasmModule) {segments : List WasmElementSegment} (pointed : Pointed s)
    (counted : ∀ segment ∈ segments, segment.functionIndices.length < 2 ^ 32)
    (fits : ∀ segment ∈ segments, Fits globals (fun table => (s.tables table).size.toNat) segment) :
    ∃ types offset, executeAll arenaSize globals (segments.flatMap (writeElementSegment module)) s = .done () {s with
      wasmTableArena := fun i => (laid globals segments i).or (s.wasmTableArena i)
      wasmTableTypesArena := types,offset := offset} := by
  induction segments generalizing s with
  | nil => exact ⟨s.wasmTableTypesArena,s.offset,rfl⟩
  | cons segment rest ih =>
    obtain ⟨types,offset,first⟩ := segment_runs arenaSize module pointed
      (counted _ (List.mem_cons_self ..)) (fits _ (List.mem_cons_self ..))
    obtain ⟨types',offset',remaining⟩ := ih (s := {s with
        wasmTableArena := fun i => (covered globals segment i).or (s.wasmTableArena i)
        wasmTableTypesArena := types,offset := offset}) pointed
      (fun other present => counted other (List.mem_cons_of_mem _ present))
      (fun other present => fits other (List.mem_cons_of_mem _ present))
    refine ⟨types',offset',?_⟩
    rw [List.flatMap_cons,executeAll_after first,remaining]
    simp only [laid_cons,Option.or_assoc]

-- A list that runs to its end fitted throughout.
theorem segments_fit {segments : List WasmElementSegment} (pointed : Pointed s)
    (counted : ∀ segment ∈ segments, segment.functionIndices.length < 2 ^ 32)
    (ran : executeAll arenaSize globals (segments.flatMap (writeElementSegment module)) s = .done () s') :
    ∀ segment ∈ segments, Fits globals (fun table => (s.tables table).size.toNat) segment := by
  induction segments generalizing s with
  | nil => intro segment present; cases present
  | cons segment rest ih =>
    rw [List.flatMap_cons] at ran
    obtain ⟨middle,first,remaining⟩ := executeAll_split ran
    have head : Fits globals (fun table => (s.tables table).size.toNat) segment := by
      apply Classical.byContradiction
      intro exceeds
      rw [segment_traps (counted _ (List.mem_cons_self ..)) exceeds] at first
      cases first
    obtain ⟨types,offset,expected⟩ := segment_runs arenaSize module pointed
      (counted _ (List.mem_cons_self ..)) head
    rw [expected] at first
    cases first
    have tail := ih (s := {s with
        wasmTableArena := fun i => (covered globals segment i).or (s.wasmTableArena i)
        wasmTableTypesArena := types,offset := offset}) pointed
      (fun other present => counted other (List.mem_cons_of_mem _ present)) remaining
    intro other present
    rcases List.mem_cons.mp present with rfl | later
    · exact head
    · exact tail other later

theorem allocations_run (globals : Nat → U32) (start : Nat) {tables : List WasmTable} (pointed : Pointed s)
    (fresh : ∀ table, start ≤ table → s.tables table = .empty) (allocates : Allocates arenaSize tables) :
    ∃ records, executeAll arenaSize globals
        (tables.mapIdx fun i t => .tableAllocate (start + i) t.min t.max) s = .done () {s with tables := records} ∧
      Pointed {s with tables := records} ∧ (∀ table < start, records table = s.tables table) ∧
      ∀ i, (records (start + i)).size.toNat = ((tables[i]?).map fun t => t.min.toNat).getD 0 := by
  induction tables generalizing s start with
  | nil =>
    refine ⟨s.tables,rfl,pointed,fun _ _ => rfl,fun i => ?_⟩
    rw [fresh _ (Nat.le_add_right ..)]
    rfl
  | cons table rest ih =>
    have made : allocateRecord arenaSize (s.tables (start + 0)) table.min table.max =
        some ⟨true,table.min,clampTable arenaSize table.max⟩ := by
      have room : ¬(TableRecord.empty.data = true ∨ table.min > clampTable arenaSize table.max) := by
        rintro (set | above)
        · cases set
        · exact Nat.not_le.mpr above (allocates table (List.mem_cons_self ..))
      rw [fresh _ (Nat.le_add_right ..)]
      exact if_neg room
    have first : execute arenaSize globals (.tableAllocate (start + 0) table.min table.max) s = .done () {s with
        tables := Function.update s.tables (start + 0) ⟨true,table.min,clampTable arenaSize table.max⟩} := by
      show wasmTableAllocate _ _ _ _ _ = _
      unfold wasmTableAllocate
      rw [Run.bind_done (Run.get_apply s),made]
      rfl
    have shift : (fun i t => TableStatement.tableAllocate (start + (i + 1)) t.min t.max) =
        fun i (t : WasmTable) => .tableAllocate (start + 1 + i) t.min t.max := by
      funext i t
      rw [show start + (i + 1) = start + 1 + i by omega]
    obtain ⟨records,ran,after,kept,sizes⟩ := ih (start + 1) (s := {s with
        tables := Function.update s.tables (start + 0) ⟨true,table.min,clampTable arenaSize table.max⟩})
      (by
        intro other unset
        dsimp only at unset ⊢
        by_cases same : other = start + 0
        · subst same; simp at unset
        · rw [Function.update_of_ne same] at unset ⊢
          exact pointed other unset)
      (by
        intro other above
        dsimp only
        rw [Function.update_of_ne (by omega)]
        exact fresh other (by omega))
      (fun t present => allocates t (List.mem_cons_of_mem _ present))
    refine ⟨records,?_,after,fun other below => ?_,fun i => ?_⟩
    · rw [List.mapIdx_cons,shift,executeAll_step first,ran]
    · rw [kept other (by omega)]
      exact Function.update_of_ne (by omega) _ _
    · cases i with
      | zero =>
        rw [kept _ (by omega)]
        simp
      | succ i =>
        rw [show start + (i + 1) = start + 1 + i by omega,sizes]
        simp

theorem allocations_done (start : Nat) {tables : List WasmTable}
    (fresh : ∀ table, start ≤ table → s.tables table = .empty)
    (ran : executeAll arenaSize globals
      (tables.mapIdx fun i t => .tableAllocate (start + i) t.min t.max) s = .done () s') :
    Allocates arenaSize tables := by
  induction tables generalizing s start with
  | nil => intro t present; cases present
  | cons table rest ih =>
    rw [List.mapIdx_cons] at ran
    obtain ⟨middle,first,remaining⟩ := executeAll_cons ran
    obtain ⟨record,made,rfl⟩ := tableAllocate_done first
    have shift : (fun i t => TableStatement.tableAllocate (start + (i + 1)) t.min t.max) =
        fun i (t : WasmTable) => .tableAllocate (start + 1 + i) t.min t.max := by
      funext i t
      rw [show start + (i + 1) = start + 1 + i by omega]
    rw [shift] at remaining
    have tail := ih (start + 1) (fun other above => by
      dsimp only
      rw [Function.update_of_ne (by omega)]
      exact fresh other (by omega)) remaining
    intro t present
    rcases List.mem_cons.mp present with rfl | later
    · unfold allocateRecord at made
      split at made
      · cases made
      · rename_i allowed
        exact Nat.not_lt.mp fun above => allowed (.inr above)
    · exact tail t later

theorem fresh_pointed {start : TableState} (fresh : Fresh arenaSize module start) : Pointed start := by
  intro table unset
  by_cases own : module.tableImports.length ≤ table
  · rw [fresh.own table own]; rfl
  · rcases fresh.imported table (Nat.not_le.mp own) with empty | ⟨size,maxSize,made⟩
    · rw [empty]; rfl
    · unfold allocateRecord at made
      split at made
      · cases made
      · cases made' : start.tables table with
        | mk data size' max' => rw [made'] at made unset; cases made; cases unset

-- What instantiation has made of the tables when it comes to a segment.
structure Before (globals : Nat → U32) (module : WasmModule) (start : TableState) (before : List WasmElementSegment)
    (s : TableState) : Prop where
  pointed : Pointed s
  sizes : ∀ table, (s.tables table).size.toNat = tableSizes module start table
  arena : ∀ i, s.wasmTableArena i = laid globals before i
  fits : ∀ segment ∈ before, Fits globals (tableSizes module start) segment

theorem before_reached (globals : Nat → U32) {start : TableState} (before : List WasmElementSegment)
    (fresh : Fresh arenaSize module start)
    (counted : ∀ segment ∈ before, segment.functionIndices.length < 2 ^ 32)
    (allocates : Allocates arenaSize module.tables)
    (fits : ∀ segment ∈ before, Fits globals (tableSizes module start) segment) :
    ∃ s, executeAll arenaSize globals (writtenBefore module before) start = .done () s ∧
      Before globals module start before s := by
  obtain ⟨records,allocated,pointed,kept,own⟩ := allocations_run globals _ (fresh_pointed fresh) fresh.own
    allocates
  have sizes : ∀ table, (records table).size.toNat = tableSizes module start table := by
    intro table
    unfold tableSizes
    split
    · rename_i imported
      rw [kept table imported]
    · rename_i later
      have place := own (table - module.tableImports.length)
      rwa [Nat.add_sub_cancel' (Nat.not_lt.mp later)] at place
  have same : (fun table => ((records table).size).toNat) = tableSizes module start := funext sizes
  obtain ⟨types,offset,ran⟩ := segments_run arenaSize module
    (s := {start with tables := records}) pointed counted (by simpa only [same] using fits)
  refine ⟨_,(executeAll_after allocated).trans ran,pointed,sizes,fun i => ?_,fits⟩
  dsimp only
  rw [fresh.null i,Option.or_none]

theorem before_parts {start s : TableState} {before : List WasmElementSegment} (fresh : Fresh arenaSize module start)
    (counted : ∀ segment ∈ before, segment.functionIndices.length < 2 ^ 32)
    (ran : executeAll arenaSize globals (writtenBefore module before) start = .done () s) :
    Allocates arenaSize module.tables ∧ Before globals module start before s := by
  obtain ⟨middle,allocated,remaining⟩ := executeAll_split ran
  have allocates := allocations_done _ fresh.own allocated
  obtain ⟨empty,ready,prior⟩ := before_reached globals [] fresh
    (fun _ present => by cases present) allocates (fun _ present => by cases present)
  have middleAt : empty = middle := by
    unfold writtenBefore at ready
    rw [List.flatMap_nil,List.append_nil] at ready
    exact (Outcome.done.inj (ready.symm.trans allocated)).2
  subst middleAt
  have fits := segments_fit prior.pointed counted remaining
  simp only [prior.sizes] at fits
  obtain ⟨s',again,parts⟩ := before_reached globals before fresh counted allocates fits
  have same : s' = s := (Outcome.done.inj (again.symm.trans ran)).2
  exact ⟨allocates,same ▸ parts⟩

-- Every segment that instantiation comes to and applies stays apart.
def Separate (globals : Nat → U32) (sizes : Nat → Nat) (segments : List WasmElementSegment) : Prop :=
  ∀ before segment rest, segments = before ++ segment :: rest → (∀ other ∈ before, Fits globals sizes other) →
    Fits globals sizes segment → Apart globals sizes segment

section
variable {sizes : Nat → Nat} {segments : List WasmElementSegment} {segment : WasmElementSegment} {table i : Nat}

theorem covered_entry {f : Nat} (covers : covered globals segment i = some f) :
    ∃ n < segment.functionIndices.length, i = segmentOffset globals segment + n := by
  unfold covered filled at covers
  split at covers
  · obtain ⟨inside,_⟩ := List.getElem?_eq_some_iff.mp covers
    exact ⟨_,inside,by omega⟩
  · cases covers

theorem covered_apart (apart : Apart globals sizes segment) (below : i < sizes table)
    (other : table ≠ segment.tableIndex) : covered globals segment i = none := by
  cases covers : covered globals segment i with
  | none => rfl
  | some f =>
    obtain ⟨n,inside,rfl⟩ := covered_entry covers
    have beyond := apart n inside table other
    omega

theorem findSome_same {f g : WasmElementSegment → Option Nat} (same : ∀ segment ∈ segments, f segment = g segment) :
    segments.findSome? f = segments.findSome? g := by
  induction segments with
  | nil => rfl
  | cons segment rest ih =>
    simp only [List.findSome?_cons,same segment (List.mem_cons_self ..),
      ih fun other present => same other (List.mem_cons_of_mem _ present)]

theorem laid_given (apart : ∀ segment ∈ segments, Apart globals sizes segment) (below : i < sizes table) :
    laid globals segments i = given globals segments table i := by
  apply findSome_same
  intro segment present
  split
  · rfl
  · rename_i other
    exact covered_apart (apart segment (List.mem_reverse.mp present)) below (Ne.symm other)

theorem separate_apart (separate : Separate globals sizes segments)
    (fits : ∀ segment ∈ segments, Fits globals sizes segment) : ∀ segment ∈ segments, Apart globals sizes segment := by
  intro segment present
  obtain ⟨before,rest,split⟩ := List.append_of_mem present
  exact separate before segment rest split
    (fun other earlier => fits other (by rw [split]; exact List.mem_append_left _ earlier)) (fits segment present)

end

theorem Before.slot {start : TableState} {before : List WasmElementSegment} (at' : Before globals module start before s)
    {table i : Nat} (below : i < (s.tables table).size.toNat) : tableSlot s table i = laid globals before i := by
  unfold tableSlot
  cases set : (s.tables table).data with
  | true => rw [if_pos rfl,at'.arena]
  | false =>
    rw [at'.pointed table set] at below
    cases below

theorem Before.segment_fits {start : TableState} {before : List WasmElementSegment} {segment : WasmElementSegment}
    (at' : Before globals module start before s) (counted : segment.functionIndices.length < 2 ^ 32)
    (ran : executeAll arenaSize globals (writeElementSegment module segment) s = .done () s') :
    Fits globals (tableSizes module start) segment ∧ s'.tables = s.tables ∧
      ∀ i, s'.wasmTableArena i = (covered globals segment i).or (laid globals before i) := by
  have sizes : (fun table => (s.tables table).size.toNat) = tableSizes module start := funext at'.sizes
  have fits : Fits globals (tableSizes module start) segment := by
    apply Classical.byContradiction
    intro exceeds
    rw [segment_traps counted (by rwa [sizes])] at ran
    cases ran
  obtain ⟨types,offset,expected⟩ := segment_runs arenaSize module at'.pointed counted
    (by rwa [sizes])
  rw [expected] at ran
  cases ran
  exact ⟨fits,rfl,fun i => by dsimp only; rw [at'.arena]⟩

theorem separate_instantiates {start : TableState} (counted : Counted module) (fresh : Fresh arenaSize module start)
    (separate : Allocates arenaSize module.tables →
      Separate globals (tableSizes module start) module.elementSegments) :
    Instantiates arenaSize globals module start := by
  refine ⟨?_,?_,?_⟩
  · intro s ran table i below
    obtain ⟨allocates,at'⟩ := before_parts fresh counted ran
    rw [at'.slot below]
    rw [at'.sizes] at below
    exact laid_given (separate_apart (separate allocates) at'.fits) below
  · intro before segment rest split s s' ran written table other i below
    have earlier : ∀ segment ∈ before, segment.functionIndices.length < 2 ^ 32 := fun segment present =>
      counted segment (by rw [split]; exact List.mem_append_left _ present)
    obtain ⟨allocates,at'⟩ := before_parts fresh earlier ran
    obtain ⟨fits,tables,arena⟩ := at'.segment_fits (counted segment (by simp [split])) written
    have apart := separate allocates before segment rest split at'.fits fits
    unfold tableSlot
    rw [tables,arena,at'.arena]
    rw [at'.sizes] at below
    rw [covered_apart apart below other,Option.none_or]
  · intro before segment rest split s ran exceeds
    exact ⟨_,segment_traps (counted segment (by simp [split])) (Nat.not_le.mpr exceeds),rfl,rfl⟩

-- The first segment that lands on another table's slot finds it null and changes it.
theorem instantiates_separate {start : TableState} (counted : Counted module) (fresh : Fresh arenaSize module start)
    (instantiates : Instantiates arenaSize globals module start) (allocates : Allocates arenaSize module.tables) :
    Separate globals (tableSizes module start) module.elementSegments := by
  have step : ∀ before segment rest, module.elementSegments = before ++ segment :: rest →
      (∀ other ∈ before, Fits globals (tableSizes module start) other) →
      Fits globals (tableSizes module start) segment →
      (∀ other ∈ before, Apart globals (tableSizes module start) other) →
      Apart globals (tableSizes module start) segment := by
    intro before segment rest split earlier fits apart n inside table other
    have counts : ∀ segment ∈ before, segment.functionIndices.length < 2 ^ 32 := fun segment present =>
      counted segment (by rw [split]; exact List.mem_append_left _ present)
    obtain ⟨s,ran,at'⟩ := before_reached globals before fresh counts allocates earlier
    have sizes : (fun table => (s.tables table).size.toNat) = tableSizes module start := funext at'.sizes
    have count : segment.functionIndices.length < 2 ^ 32 := counted segment (by simp [split])
    obtain ⟨types,offset,written⟩ := segment_runs arenaSize module at'.pointed count
      (by rwa [sizes])
    apply Nat.not_lt.mp
    intro below
    have below' : segmentOffset globals segment + n < (s.tables table).size.toNat := by rwa [at'.sizes]
    have own : segmentOffset globals segment + n < tableSizes module start segment.tableIndex := by
      unfold Fits at fits
      omega
    -- nothing before it covers the slot: it would not be apart from one of the two tables
    have null : laid globals before (segmentOffset globals segment + n) = none := by
      apply List.findSome?_eq_none_iff.mpr
      intro previous present
      have previousApart := apart previous (List.mem_reverse.mp present)
      by_cases same : table = previous.tableIndex
      · exact covered_apart previousApart own fun target => other (same.trans target.symm)
      · exact covered_apart previousApart below same
    have kept := instantiates.framed before segment rest split s _ ran written table other _ below'
    rw [at'.slot below',null] at kept
    have entry : covered globals segment (segmentOffset globals segment + n) = some segment.functionIndices[n] := by
      simp [covered,filled,inside]
    cases set : (s.tables table).data with
    | true => simp [tableSlot,set,entry] at kept
    | false => rw [at'.pointed table set] at below'; cases below'
  have all : ∀ before rest, module.elementSegments = before ++ rest →
      (∀ other ∈ before, Fits globals (tableSizes module start) other) →
      ∀ other ∈ before, Apart globals (tableSizes module start) other := by
    intro before
    induction before using List.reverseRecOn with
    | nil => intro rest split earlier other present; cases present
    | append_singleton before segment ih =>
      intro rest split earlier other present
      rw [List.append_assoc] at split
      have previous := ih _ split fun other present => earlier other (List.mem_append_left _ present)
      rcases List.mem_append.mp present with old | new
      · exact previous other old
      · rw [List.mem_singleton.mp new]
        exact step before segment rest split (fun other present => earlier other (List.mem_append_left _ present))
          (earlier segment (by simp)) previous
  intro before segment rest split earlier fits
  exact step before segment rest split earlier fits (all before _ split earlier)

theorem table_instantiation (arenaSize : U32) (globals : Nat → U32) (module : WasmModule) (start : TableState)
    (counted : Counted module) (fresh : Fresh arenaSize module start) :
    Instantiates arenaSize globals module start ↔
      (Allocates arenaSize module.tables →
        Separate globals (tableSizes module start) module.elementSegments) :=
  ⟨instantiates_separate counted fresh,separate_instantiates counted fresh⟩

end

namespace Controls
open IndirectCalls.Controls

-- Two tables of two slots; each segment fills slot 0 of its own table.
def twoTables : WasmModule := {module with
  tables := [⟨2,2⟩,⟨2,2⟩]
  elementSegments := [⟨0,.i32Const 0,[0]⟩,⟨1,.i32Const 0,[1]⟩]}

def twoInitialised : TableState := (executeAll 4 (fun _ => 0) (wasmCWriteInitTables twoTables) zeroed).state

theorem oneTable_counted : Counted module := by
  intro segment present
  cases present with
  | head => decide
  | tail _ later => cases later

end Controls

theorem table_instantiation_single :
    Instantiates 4 (fun _ => 0) IndirectCalls.Controls.module IndirectCalls.Controls.zeroed := by
  refine (table_instantiation 4 (fun _ => 0) IndirectCalls.Controls.module IndirectCalls.Controls.zeroed
    Controls.oneTable_counted IndirectCalls.Controls.zeroed_fresh).mpr ?_
  intro _ before segment rest split _ _ n inside table other
  have only : segment = ⟨0,.i32Const 1,[0,2]⟩ := by
    have present : segment ∈ IndirectCalls.Controls.module.elementSegments := by simp [split]
    exact List.mem_singleton.mp present
  subst only
  have beyond : tableSizes IndirectCalls.Controls.module IndirectCalls.Controls.zeroed table = 0 := by
    obtain ⟨k,rfl⟩ := Nat.exists_eq_succ_of_ne_zero other
    rfl
  omega

-- Slot 0 of the first table ends up with the function of the second table's segment.
theorem tables_share_slots :
    ¬Instantiates 4 (fun _ => 0) Controls.twoTables IndirectCalls.Controls.zeroed := by
  intro instantiates
  have wrong := instantiates.final Controls.twoInitialised rfl 0 0 (by decide)
  exact absurd wrong (by decide)

end SandboxStack.TableInstantiation
