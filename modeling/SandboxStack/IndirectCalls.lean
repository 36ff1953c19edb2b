import SandboxStack.RuntimeTable

namespace SandboxStack.IndirectCalls
open Trapping Translator SandboxStack.Runtime

-- Every slot that holds a function records the canonical id of its type, and
-- every table ends inside the arena.
structure Typed (arenaSize : U32) (module : WasmModule) (s : TableState) : Prop where
  recorded : ∀ j f, s.wasmTableArena j = some f →
    s.wasmTableTypesArena j = wasmCanonicalFunctionTypeIndexOfFunction module f
  declared : ∀ j f, s.wasmTableArena j = some f → (wasmModuleGetFunctionType module f).isSome
  bounded : ∀ t, (s.tables t).size.toNat ≤ arenaSize.toNat

theorem clampTable_bound (arenaSize maxSize : U32) : (clampTable arenaSize maxSize).toNat ≤ arenaSize.toNat := by
  unfold clampTable
  split
  · exact Nat.le_refl _
  · rename_i below
    exact Nat.not_lt.mp fun above => below above

theorem allocateRecord_bound {arenaSize size maxSize : U32} {t t' : TableRecord}
    (made : allocateRecord arenaSize t size maxSize = some t') : t'.size.toNat ≤ arenaSize.toNat := by
  unfold allocateRecord at made
  split at made
  · cases made
  · rename_i allowed
    cases made
    have room : size.toNat ≤ (clampTable arenaSize maxSize).toNat :=
      Nat.not_lt.mp fun above => allowed (.inr above)
    exact Nat.le_trans room (clampTable_bound _ _)

theorem fresh_typed {arenaSize : U32} {module : WasmModule} {s : TableState}
    (fresh : Fresh arenaSize module s) : Typed arenaSize module s := by
  refine ⟨fun j f held => ?_,fun j f held => ?_,fun t => ?_⟩
  · rw [fresh.null j] at held; cases held
  · rw [fresh.null j] at held; cases held
  · by_cases own : module.tableImports.length ≤ t
    · rw [fresh.own t own]; exact Nat.zero_le _
    · rcases fresh.imported t (Nat.not_le.mp own) with empty | ⟨size,maxSize,made⟩
      · rw [empty]; exact Nat.zero_le _
      · exact allocateRecord_bound made

theorem executeAll_append (arenaSize : U32) (globals : Nat → U32) (one two : List TableStatement) :
    executeAll arenaSize globals (one ++ two) =
      (do executeAll arenaSize globals one; executeAll arenaSize globals two) := by
  induction one with
  | nil => rfl
  | cons statement rest ih =>
    funext s
    simp only [List.cons_append,executeAll,ih]
    show Run.bind _ _ s = Run.bind (Run.bind _ _) _ s
    unfold Run.bind
    cases execute arenaSize globals statement s <;> rfl

-- A completed run of two lists went through a middle state.
theorem executeAll_split {arenaSize : U32} {globals : Nat → U32} {one two : List TableStatement}
    {s s' : TableState} (ran : executeAll arenaSize globals (one ++ two) s = .done () s') :
    ∃ middle, executeAll arenaSize globals one s = .done () middle ∧
      executeAll arenaSize globals two middle = .done () s' := by
  rw [executeAll_append] at ran
  cases first : executeAll arenaSize globals one s with
  | done value middle =>
    rw [Run.bind_done first] at ran
    exact ⟨middle,rfl,ran⟩
  | stopped reason middle =>
    rw [Run.bind_stopped first] at ran
    cases ran

theorem executeAll_cons {arenaSize : U32} {globals : Nat → U32} {statement : TableStatement}
    {rest : List TableStatement} {s s' : TableState}
    (ran : executeAll arenaSize globals (statement :: rest) s = .done () s') :
    ∃ middle, execute arenaSize globals statement s = .done () middle ∧
      executeAll arenaSize globals rest middle = .done () s' := by
  cases first : execute arenaSize globals statement s with
  | done value middle =>
    rw [executeAll,Run.bind_done first] at ran
    exact ⟨middle,rfl,ran⟩
  | stopped reason middle =>
    rw [executeAll,Run.bind_stopped first] at ran
    cases ran

theorem tableAllocate_done {arenaSize : U32} {table : Nat} {min max : U32} {s s' : TableState}
    (ran : wasmTableAllocate arenaSize table min max s = .done () s') :
    ∃ t, allocateRecord arenaSize (s.tables table) min max = some t ∧
      s' = {s with tables := Function.update s.tables table t} := by
  unfold wasmTableAllocate at ran
  rw [Run.bind_done (Run.get_apply s)] at ran
  cases made : allocateRecord arenaSize (s.tables table) min max with
  | none => rw [made] at ran; cases ran
  | some t => rw [made] at ran; cases ran; exact ⟨t,rfl,rfl⟩

theorem writeThrough_done {table : Nat} {update : TableState → TableState} {s s' : TableState}
    (ran : writeThrough table update s = .done () s') : (s.tables table).data = true ∧ s' = update s := by
  unfold writeThrough at ran
  rw [Run.bind_done (Run.get_apply s)] at ran
  split at ran
  · cases ran; exact ⟨‹_›,rfl⟩
  · cases ran

theorem checkSegment_done {table : Nat} {count : U32} {s s' : TableState}
    (ran : checkSegment table count s = .done () s') :
    s' = s ∧ s.offset.toNat + count.toNat ≤ (s.tables table).size.toNat := by
  unfold checkSegment at ran
  rw [Run.bind_done (Run.get_apply s)] at ran
  unfold wasmTableInit at ran
  split at ran
  · cases ran
  · rename_i inside
    cases ran
    exact ⟨rfl,(CInteger.exceeds_false _ _ _).mp (by simpa using inside)⟩

section
variable {arenaSize : U32} {globals : Nat → U32} {module : WasmModule} {s s' : TableState}

theorem allocations_typed {start : Nat} {tables : List WasmTable} (typed : Typed arenaSize module s)
    (ran : executeAll arenaSize globals (tables.mapIdx fun i t => .tableAllocate (start + i) t.min t.max) s =
      .done () s') : Typed arenaSize module s' := by
  induction tables generalizing s start with
  | nil => cases ran; exact typed
  | cons table rest ih =>
    rw [List.mapIdx_cons] at ran
    obtain ⟨middle,first,remaining⟩ := executeAll_cons ran
    obtain ⟨t,made,rfl⟩ := tableAllocate_done first
    have next : Typed arenaSize module {s with tables := Function.update s.tables (start + 0) t} := by
      refine ⟨typed.recorded,typed.declared,fun other => ?_⟩
      by_cases same : other = start + 0
      · subst same
        simpa using allocateRecord_bound made
      · dsimp only
        rw [Function.update_of_ne same]
        exact typed.bounded other
    have shift : (fun i t => TableStatement.tableAllocate (start + (i + 1)) t.min t.max) =
        fun i (t : WasmTable) => .tableAllocate (start + 1 + i) t.min t.max := by
      funext i t
      rw [show start + (i + 1) = start + 1 + i by omega]
    rw [shift] at remaining
    exact ih next remaining

-- The two writes of an entry belong together: between them the slot is not typed.
def entered (module : WasmModule) (s : TableState) (j f : Nat) : TableState :=
  {s with
    wasmTableArena := Function.update s.wasmTableArena j (some f)
    wasmTableTypesArena := Function.update s.wasmTableTypesArena j (wasmCanonicalFunctionTypeIndexOfFunction module f)}

theorem entered_typed (typed : Typed arenaSize module s) (j f : Nat)
    (known : (wasmModuleGetFunctionType module f).isSome) : Typed arenaSize module (entered module s j f) := by
  refine ⟨fun i g held => ?_,fun i g held => ?_,typed.bounded⟩
  · by_cases same : i = j
    · subst same
      simp only [entered,Function.update_self,Option.some.injEq] at held
      simp only [entered,Function.update_self,held]
    · simp only [entered,Function.update_of_ne same] at held ⊢
      exact typed.recorded i g held
  · by_cases same : i = j
    · subst same
      simp only [entered,Function.update_self,Option.some.injEq] at held
      exact held ▸ known
    · simp only [entered,Function.update_of_ne same] at held
      exact typed.declared i g held

theorem elements_typed {table first : Nat} {indices : List Nat} (typed : Typed arenaSize module s)
    (known : ∀ f ∈ indices, (wasmModuleGetFunctionType module f).isSome)
    (ran : executeAll arenaSize globals (writeElements module table first indices) s = .done () s') :
    Typed arenaSize module s' := by
  induction indices generalizing s first with
  | nil => cases ran; exact typed
  | cons f rest ih =>
    obtain ⟨middle,data,remaining⟩ := executeAll_cons ran
    obtain ⟨after,type,remaining⟩ := executeAll_cons remaining
    obtain ⟨_,rfl⟩ := writeThrough_done data
    obtain ⟨_,rfl⟩ := writeThrough_done type
    exact ih (entered_typed typed (slot s.offset first) f (known f (List.mem_cons_self ..)))
      (fun g present => known g (List.mem_cons_of_mem _ present)) remaining

theorem segment_typed {segment : WasmElementSegment} (typed : Typed arenaSize module s)
    (known : ∀ f ∈ segment.functionIndices, (wasmModuleGetFunctionType module f).isSome)
    (ran : executeAll arenaSize globals (writeElementSegment module segment) s = .done () s') :
    Typed arenaSize module s' := by
  obtain ⟨middle,offset,remaining⟩ := executeAll_cons ran
  cases offset
  obtain ⟨after,init,remaining⟩ := executeAll_cons remaining
  obtain ⟨rfl,_⟩ := checkSegment_done init
  have moved : Typed arenaSize module {s with offset := ConstantExpr.value globals segment.offset} :=
    ⟨typed.recorded,typed.declared,typed.bounded⟩
  exact elements_typed moved known remaining

theorem segments_typed {segments : List WasmElementSegment} (typed : Typed arenaSize module s)
    (known : ∀ segment ∈ segments, ∀ f ∈ segment.functionIndices, (wasmModuleGetFunctionType module f).isSome)
    (ran : executeAll arenaSize globals (segments.flatMap (writeElementSegment module)) s = .done () s') :
    Typed arenaSize module s' := by
  induction segments generalizing s with
  | nil => cases ran; exact typed
  | cons segment rest ih =>
    rw [List.flatMap_cons] at ran
    obtain ⟨middle,first,remaining⟩ := executeAll_split ran
    have next := segment_typed typed (known segment (List.mem_cons_self ..)) first
    exact ih next (fun other present => known other (List.mem_cons_of_mem _ present)) remaining

end

-- Every index the module names exists; the reader does not check this.
structure InRange (module : WasmModule) : Prop where
  imports : ∀ t ∈ module.functionImports, t < module.functionTypes.length
  functions : ∀ t ∈ module.functions, t < module.functionTypes.length
  elements : ∀ segment ∈ module.elementSegments, ∀ f ∈ segment.functionIndices,
    f < module.functionImports.length + module.functions.length

theorem InRange.declares {module : WasmModule} {f : Nat}
    (inside : f < module.functionImports.length + module.functions.length) :
    (wasmModuleGetFunctionType module f).isSome := by
  unfold wasmModuleGetFunctionType
  split
  · rfl
  · rw [if_pos (by omega)]; rfl

theorem initTables_typed {arenaSize : U32} {globals : Nat → U32} {module : WasmModule} {s s' : TableState}
    (range : InRange module) (fresh : Fresh arenaSize module s)
    (ran : executeAll arenaSize globals (wasmCWriteInitTables module) s = .done () s') :
    Typed arenaSize module s' := by
  obtain ⟨middle,allocated,filled⟩ := executeAll_split ran
  refine segments_typed (allocations_typed (fresh_typed fresh) allocated) ?_ filled
  exact fun segment present f member => InRange.declares (range.elements segment present f member)

-- What one call site does in a state: exactly one of a matching function and a
-- trap, and the state stays as it is.
def Checked (arenaSize : U32) (module : WasmModule) (s : TableState) (table functionTypeIndex : Nat) (i : U32) :
    Outcome TableStop TableState Nat → Prop
  | .done f s' => s' = s ∧ i.toNat < (s.tables table).size.toNat ∧ i.toNat < arenaSize.toNat ∧
      s.wasmTableArena i.toNat = some f ∧
      wasmModuleGetFunctionType module f = some (module.functionType functionTypeIndex)
  | .stopped reason s' => s' = s ∧
      ((reason = .trap .outOfBoundsTable ∧ (s.tables table).size.toNat ≤ i.toNat) ∨
       (reason = .trap .nullFunction ∧ s.wasmTableArena i.toNat = none) ∨
       (reason = .trap .indirectCallTypeMismatch ∧ ∃ f, s.wasmTableArena i.toNat = some f ∧
          wasmModuleGetFunctionType module f ≠ some (module.functionType functionTypeIndex)))

section
variable {t : TableRecord} {i : U32} {id f : Nat} {s : TableState}

theorem tableGet_outside (outside : i ≥ t.size) :
    wasmTableGet t i id s = .stopped (.trap .outOfBoundsTable) s := by
  unfold wasmTableGet
  rw [Run.bind_done (Run.get_apply s),if_pos outside]
  rfl

theorem tableGet_null (inside : ¬i ≥ t.size) (null : s.wasmTableArena i.toNat = none) :
    wasmTableGet t i id s = .stopped (.trap .nullFunction) s := by
  unfold wasmTableGet
  rw [Run.bind_done (Run.get_apply s),if_neg inside,null]
  rfl

theorem tableGet_mismatch (inside : ¬i ≥ t.size) (held : s.wasmTableArena i.toNat = some f)
    (other : s.wasmTableTypesArena i.toNat ≠ id) :
    wasmTableGet t i id s = .stopped (.trap .indirectCallTypeMismatch) s := by
  unfold wasmTableGet
  rw [Run.bind_done (Run.get_apply s),if_neg inside,held]
  dsimp only
  rw [if_pos other]
  rfl

theorem tableGet_found (inside : ¬i ≥ t.size) (held : s.wasmTableArena i.toNat = some f)
    (same : s.wasmTableTypesArena i.toNat = id) : wasmTableGet t i id s = .done f s := by
  unfold wasmTableGet
  rw [Run.bind_done (Run.get_apply s),if_neg inside,held]
  dsimp only
  rw [if_neg (not_not.mpr same)]
  rfl

end

theorem callIndirect_checked {arenaSize : U32} {module : WasmModule} {s : TableState}
    (typed : Typed arenaSize module s) (table functionTypeIndex : Nat) (i : U32) :
    Checked arenaSize module s table functionTypeIndex i
      (callIndirect (wasmCWriteCallIndirectExpr module table functionTypeIndex) i s) := by
  unfold callIndirect
  rw [Run.bind_done (Run.get_apply s)]
  dsimp only [wasmCWriteCallIndirectExpr]
  by_cases outside : i ≥ (s.tables table).size
  · rw [tableGet_outside outside]
    exact ⟨rfl,.inl ⟨rfl,outside⟩⟩
  have below : i.toNat < (s.tables table).size.toNat := Nat.not_le.mp fun above => outside above
  cases held : s.wasmTableArena i.toNat with
  | none =>
    rw [tableGet_null outside held]
    exact ⟨rfl,.inr (.inl ⟨rfl,held⟩)⟩
  | some f =>
    obtain ⟨t,declared⟩ := Option.isSome_iff_exists.mp (typed.declared _ f held)
    have same := canonical_function declared functionTypeIndex
    rw [← typed.recorded _ f held] at same
    by_cases equal : s.wasmTableTypesArena i.toNat = wasmCanonicalFunctionTypeIndex module functionTypeIndex
    · rw [tableGet_found outside held equal]
      refine ⟨rfl,below,Nat.lt_of_lt_of_le below (typed.bounded table),held,?_⟩
      rw [declared,same.mp equal]
    · rw [tableGet_mismatch outside held equal]
      refine ⟨rfl,.inr (.inr ⟨rfl,f,held,fun matching => equal (same.mpr ?_)⟩)⟩
      rw [declared] at matching
      exact Option.some.inj matching

-- One executed call_indirect check, by its table, its type operand and its index.
def checkStep (module : WasmModule) (site : Nat × Nat × U32) : TableRun Nat :=
  callIndirect (wasmCWriteCallIndirectExpr module site.1 site.2.1) site.2.2

-- States of a run after table initialisation: no other generated statement
-- writes a table, so only the checks follow.
def Running (arenaSize : U32) (globals : Nat → U32) (module : WasmModule) : TableState → Prop :=
  Reached (fun s => ∃ start, Fresh arenaSize module start ∧
    executeAll arenaSize globals (wasmCWriteInitTables module) start = .done () s) (checkStep module)

theorem running_typed {arenaSize : U32} {globals : Nat → U32} {module : WasmModule} {s : TableState}
    (range : InRange module) (running : Running arenaSize globals module s) : Typed arenaSize module s := by
  refine Reached.invariant (fun s initial => ?_) (fun s site f s' typed ran => ?_) running
  · obtain ⟨start,fresh,ran⟩ := initial
    exact initTables_typed range fresh ran
  · have checked := callIndirect_checked typed site.1 site.2.1 site.2.2
    unfold checkStep at ran
    rw [ran] at checked
    exact checked.1 ▸ typed

theorem indirect_call_safety (arenaSize : U32) (globals : Nat → U32) (module : WasmModule) (s : TableState)
    (range : InRange module) (running : Running arenaSize globals module s) :
    (∀ table functionTypeIndex i, Checked arenaSize module s table functionTypeIndex i
      (callIndirect (wasmCWriteCallIndirectExpr module table functionTypeIndex) i s)) ∧
    ∀ j f, s.wasmTableArena j = some f → ∀ table functionTypeIndex,
      (s.wasmTableTypesArena j = (wasmCWriteCallIndirectExpr module table functionTypeIndex).typeId ↔
        wasmModuleGetFunctionType module f = some (module.functionType functionTypeIndex)) := by
  have typed := running_typed range running
  refine ⟨callIndirect_checked typed,fun j f held table functionTypeIndex => ?_⟩
  obtain ⟨t,declared⟩ := Option.isSome_iff_exists.mp (typed.declared j f held)
  rw [typed.recorded j f held,declared,Option.some.injEq]
  exact canonical_function declared functionTypeIndex

namespace Controls

-- Types 0 and 1 are equal; the segment holds the import and an own function.
def module : WasmModule where
  functionTypes := [⟨[.i32],[.i32]⟩,⟨[.i32],[.i32]⟩,⟨[],[]⟩]
  functionImports := [1]
  functions := [0,2]
  tableImports := []
  tables := [⟨3,3⟩]
  elementSegments := [⟨0,.i32Const 1,[0,2]⟩]

def zeroed : TableState := ⟨fun _ => .empty,fun _ => none,fun _ => 0,0⟩

theorem module_range : InRange module where
  imports := by decide
  functions := by decide
  elements := by decide

theorem zeroed_fresh : Fresh 4 module zeroed where
  own _ _ := rfl
  imported _ _ := .inl rfl
  null _ := rfl

def initialised : TableState := (executeAll 4 (fun _ => 0) (wasmCWriteInitTables module) zeroed).state

theorem initialised_running : Running 4 (fun _ => 0) module initialised :=
  .initial ⟨zeroed,zeroed_fresh,rfl⟩

end Controls

theorem indirect_call_safety_duplicates :
    callIndirect (wasmCWriteCallIndirectExpr Controls.module 0 1) 1 Controls.initialised = .done 0 Controls.initialised ∧
    (∀ table functionTypeIndex i, Checked 4 Controls.module Controls.initialised table functionTypeIndex i
      (callIndirect (wasmCWriteCallIndirectExpr Controls.module table functionTypeIndex) i Controls.initialised)) :=
  ⟨rfl,(indirect_call_safety 4 (fun _ => 0) Controls.module Controls.initialised Controls.module_range
    Controls.initialised_running).1⟩

end SandboxStack.IndirectCalls
