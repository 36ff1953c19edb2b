import SandboxStack.MemoryRefinement
import SandboxStack.RuntimeTable

namespace SandboxStack.DataSegments
open ByteMemory Trapping Translator SandboxStack.Runtime

-- `offset` is the constant expression of an active segment; the reader delivers
-- a 32-bit count of bytes.
structure WasmDataSegment where
  passive : Bool
  offset : ConstantExpr
  bytes : List U8
  small : bytes.length < 2 ^ 32

structure WasmMemoryType where
  min : U32
  max : U32

-- The parts of a read module that its memory and data segments depend on.
structure WasmMemoryModule where
  memoryImports : List WasmMemoryType
  memories : List WasmMemoryType
  dataSegments : List WasmDataSegment

def WasmMemoryModule.segmentBytes (module : WasmMemoryModule) (k : Nat) : List U8 :=
  ((module.dataSegments[k]?).map fun segment => segment.bytes).getD []

-- An index that names no segment does not compile; it stands for an active,
-- empty one.
def WasmMemoryModule.passive (module : WasmMemoryModule) (k : Nat) : Bool :=
  ((module.dataSegments[k]?).map fun segment => segment.passive).getD false

-- `U32 dN_len=<count>;`, the current segment length (zeroed by data.drop).
def wasmCWriteDataSegments (module : WasmMemoryModule) (k : Nat) : U32 :=
  BitVec.ofNat 32 (module.segmentBytes k).length

-- The statements of the generated InitMemories function: an allocation, and
-- LOAD_DATA(memory, offset, dN, <count>) for an active segment.
inductive MemoryStatement where
  | allocate (min max : U32)
  | loadData (offset : ConstantExpr) (k : Nat) (length : U32)

def writeSegmentLoad (k : Nat) (segment : WasmDataSegment) : List MemoryStatement :=
  if segment.passive then [] else [.loadData segment.offset k (BitVec.ofNat 32 segment.bytes.length)]

def wasmCWriteInitMemories (module : WasmMemoryModule) : List MemoryStatement :=
  if module.memories.length > 0 then
    module.memories.map (fun memory => .allocate memory.min memory.max) ++
      (module.dataSegments.mapIdx writeSegmentLoad).flatten
  else []

-- What the two instructions are translated to. The length variable is named
-- apart from the array.
inductive DataStatement where
  | memoryInit (array length : Nat)
  | clearLength (length : Nat)
  deriving DecidableEq, Repr

def wasmCWriteMemoryInitExpr (dataSegmentIndex : Nat) : DataStatement :=
  .memoryInit dataSegmentIndex dataSegmentIndex

def wasmCWriteDataDrop (dataIndex : Nat) : DataStatement := .clearLength dataIndex

-- The host, and the length variables of the translated module.
structure Instance where
  host : Host
  lengths : Nat → U32

abbrev InstanceRun := Trapping.Run Stop Instance

def onHost (r : Runtime.Run α) : InstanceRun α := fun s =>
  match r s.host with
  | .done value h => .done value {s with host := h}
  | .stopped reason h => .stopped reason {s with host := h}

def runMemoryStatement (arena : Arena) (globals : Nat → U32) (module : WasmMemoryModule) :
    MemoryStatement → InstanceRun Unit
  | .allocate min max => onHost (wasmMemoryAllocate arena min max false)
  | .loadData offset k length => fun s =>
    onHost (loadData s.host.wasmMemory0 (ConstantExpr.value globals offset) (module.segmentBytes k) length) s

def runMemoryStatements (arena : Arena) (globals : Nat → U32) (module : WasmMemoryModule) :
    List MemoryStatement → InstanceRun Unit
  | [] => pure ()
  | statement :: rest => do
    runMemoryStatement arena globals module statement
    runMemoryStatements arena globals module rest

def runDataStatement (module : WasmMemoryModule) (dest src n : U32) : DataStatement → InstanceRun Result
  | .memoryInit array length => fun s =>
    (onHost ((wasmMemoryInit s.host.wasmMemory0 dest (module.segmentBytes array) (s.lengths length) src n).result
      fun _ => .unit)) s
  | .clearLength length => fun s => .done .unit {s with lengths := Function.update s.lengths length 0}

-- One executed instruction of the guest; `access` is any other use of the memory.
inductive DataOperation where
  | memoryInit (k : Nat) (dest src n : U32)
  | dataDrop (k : Nat)
  | access (op : MemoryOperation)

def executeData (module : WasmMemoryModule) : DataOperation → InstanceRun Result
  | .memoryInit k dest src n => runDataStatement module dest src n (wasmCWriteMemoryInitExpr k)
  | .dataDrop k => runDataStatement module 0 0 0 (wasmCWriteDataDrop k)
  | .access op => onHost (executeMemory op)

-- The specification's machine: a segment is its bytes, and dropping empties it.
structure DataState where
  memory : Memory
  segments : Nat → List U8

def specifiedData (op : DataOperation) : Trapping.Run Stop DataState Result := fun t =>
  match op with
  | .memoryInit k dest src n =>
    match t.memory.init dest.toNat (t.segments k) src.toNat n.toNat with
    | some m => .done .unit {t with memory := m}
    | none => .stopped (.trap .outOfBoundsMemory) t
  | .dataDrop k => .done .unit {t with segments := Function.update t.segments k []}
  | .access op =>
    match specified op t.memory with
    | .done value m => .done value {t with memory := m}
    | .stopped reason m => .stopped reason {t with memory := m}

-- After instantiation the active segments are dropped.
def afterInstantiation (module : WasmMemoryModule) (m : Memory) : DataState :=
  ⟨m,fun k => if module.passive k then module.segmentBytes k else []⟩

-- An instance on which InitMemories has returned: with an own memory from a
-- zero arena, else on the memory the embedder allocated.
def Loaded (arena : Arena) (globals : Nat → U32) (module : WasmMemoryModule) (s : Instance) : Prop :=
  ∃ start, start.lengths = wasmCWriteDataSegments module ∧
    (if module.memoryImports.length > 0 then ∃ min max, Started arena min max start.host
      else module.memories.length > 0 ∧ start.host.wasmMemory0.data = 0 ∧
        ∀ i < arena.wasmArenaPages.toNat * 65536, start.host.bytes (arena.wasmArena + i) = 0) ∧
    runMemoryStatements arena globals module (wasmCWriteInitMemories module) start = .done () s

structure Tracks (arena : Arena) (module : WasmMemoryModule) (s : Instance) (t : DataState) : Prop where
  refines : Refines arena s.host t.memory
  lengths : ∀ k, s.lengths k = wasmCWriteDataSegments module k ∨ s.lengths k = 0
  segments : ∀ k, t.segments k =
    if module.passive k then (module.segmentBytes k).take (s.lengths k).toNat else []

-- Not the read of an active segment that data.drop has not named: such a
-- segment still has its length.
def Conforming (module : WasmMemoryModule) (op : DataOperation) (s : Instance) : Prop :=
  match op with
  | .memoryInit k dest src n => module.passive k = true ∨ src.toNat + n.toNat = 0 ∨
      (s.lengths k).toNat < src.toNat + n.toNat ∨ s.host.wasmMemory0.size.toNat < dest.toNat + n.toNat
  | .dataDrop _ | .access _ => True

section
variable {arena : Arena} {globals : Nat → U32} {module : WasmMemoryModule} {s s' : Instance} {t : DataState}

theorem segmentBytes_small (module : WasmMemoryModule) (k : Nat) : (module.segmentBytes k).length < 2 ^ 32 := by
  unfold WasmMemoryModule.segmentBytes
  cases module.dataSegments[k]? with
  | none => decide
  | some segment => exact segment.small

theorem written_length (module : WasmMemoryModule) (k : Nat) :
    (wasmCWriteDataSegments module k).toNat = (module.segmentBytes k).length := by
  unfold wasmCWriteDataSegments
  rw [BitVec.toNat_ofNat,Nat.mod_eq_of_lt (segmentBytes_small module k)]

theorem Tracks.within (tracks : Tracks arena module s t) (k : Nat) :
    (s.lengths k).toNat ≤ (module.segmentBytes k).length := by
  rcases tracks.lengths k with full | dropped
  · rw [full]
    exact Nat.le_of_eq (written_length module k)
  · rw [dropped]
    exact Nat.zero_le _

theorem Tracks.moved (tracks : Tracks arena module s t) {h : Host} {m : Memory} (refines : Refines arena h m) :
    Tracks arena module {s with host := h} {t with memory := m} := ⟨refines,tracks.lengths,tracks.segments⟩

theorem specified_refused {k : Nat} {dest src n : U32}
    (refused : t.memory.init dest.toNat (t.segments k) src.toNat n.toNat = none) :
    specifiedData (.memoryInit k dest src n) t = .stopped (.trap .outOfBoundsMemory) t := by
  simp only [specifiedData,refused]

-- What the two machines make of a memory.init over one and the same bytes.
theorem init_tracks (tracks : Tracks arena module s t) (k : Nat) (dest src n : U32)
    (same : t.memory.init dest.toNat ((module.segmentBytes k).take (s.lengths k).toNat) src.toNat n.toNat =
      t.memory.init dest.toNat (t.segments k) src.toNat n.toNat) :
    Agree (Tracks arena module) (executeData module (.memoryInit k dest src n) s)
      (specifiedData (.memoryInit k dest src n) t) := by
  have agree := init_refines tracks.refines dest ⟨module.segmentBytes k,s.lengths k,tracks.within k⟩ src n
  simp only [executeMemory,specified,performOn,HostArray.data,same] at agree
  simp only [executeData,runDataStatement,wasmCWriteMemoryInitExpr,specifiedData,onHost]
  rw [Run.bind_done (Run.get_apply s.host)] at agree
  cases ran : (wasmMemoryInit s.host.wasmMemory0 dest (module.segmentBytes k) (s.lengths k) src n).result
      (fun _ => Result.unit) s.host with
  | done value h =>
    rw [ran] at agree
    cases spec : t.memory.init dest.toNat (t.segments k) src.toNat n.toNat with
    | none => rw [spec] at agree; cases agree
    | some m =>
      rw [spec] at agree
      cases agree with
      | done refines => exact .done (tracks.moved refines)
  | stopped reason h =>
    rw [ran] at agree
    cases spec : t.memory.init dest.toNat (t.segments k) src.toNat n.toNat with
    | none =>
      rw [spec] at agree
      cases agree with
      | stopped refines => exact .stopped (tracks.moved refines)
    | some m => rw [spec] at agree; cases agree

theorem drop_tracks (tracks : Tracks arena module s t) (k : Nat) :
    Agree (Tracks arena module) (executeData module (.dataDrop k) s) (specifiedData (.dataDrop k) t) := by
  refine .done ⟨tracks.refines,fun j => ?_,fun j => ?_⟩
  · dsimp only
    by_cases same : j = k
    · subst same
      exact .inr (Function.update_self ..)
    · rw [Function.update_of_ne same]
      exact tracks.lengths j
  · dsimp only
    by_cases same : j = k
    · subst same
      simp
    · rw [Function.update_of_ne same,Function.update_of_ne same]
      exact tracks.segments j

theorem access_tracks (tracks : Tracks arena module s t) (op : MemoryOperation) :
    Agree (Tracks arena module) (executeData module (.access op) s) (specifiedData (.access op) t) := by
  have agree := executeMemory_refines op tracks.refines
  simp only [executeData,specifiedData,onHost]
  cases ran : executeMemory op s.host with
  | done value h =>
    cases spec : specified op t.memory with
    | done value' m =>
      rw [ran,spec] at agree
      cases agree with
      | done refines => exact .done (tracks.moved refines)
    | stopped reason m => rw [ran,spec] at agree; cases agree
  | stopped reason h =>
    cases spec : specified op t.memory with
    | done value' m => rw [ran,spec] at agree; cases agree
    | stopped reason' m =>
      rw [ran,spec] at agree
      cases agree with
      | stopped refines => exact .stopped (tracks.moved refines)

theorem conforming_agrees (op : DataOperation) (tracks : Tracks arena module s t) (conforming : Conforming module op s) :
    Agree (Tracks arena module) (executeData module op s) (specifiedData op t) := by
  cases op with
  | memoryInit k dest src n =>
    apply init_tracks tracks
    have segment := tracks.segments k
    rcases conforming with passive | nothing | beyond | outside
    · rw [segment,if_pos passive]
    · obtain ⟨source,count⟩ : src.toNat = 0 ∧ n.toNat = 0 := by omega
      simp [Memory.init,source,count,slice]
    · have short : (t.segments k).length < src.toNat + n.toNat := by
        rw [segment]
        split
        · simp only [List.length_take]
          omega
        · exact Nat.lt_of_le_of_lt (Nat.zero_le _) beyond
      rw [Memory.init_refused fun inside => Nat.not_le.mpr short inside.1,Memory.init_refused]
      simp only [List.length_take]
      omega
    · have refused : ¬t.memory.Holds dest.toNat n.toNat := by
        unfold Memory.Holds
        rw [tracks.refines.length]
        exact Nat.not_le.mpr outside
      rw [Memory.init_refused fun inside => refused inside.2,Memory.init_refused fun inside => refused inside.2]
  | dataDrop k => exact drop_tracks tracks k
  | access op => exact access_tracks tracks op

-- The translated code copies where the specification traps.
theorem differing_continues (op : DataOperation) (tracks : Tracks arena module s t)
    (differing : ¬Conforming module op s) : ∃ value s' reason t',
      executeData module op s = .done value s' ∧ specifiedData op t = .stopped reason t' := by
  cases op with
  | memoryInit k dest src n =>
    simp only [Conforming,not_or] at differing
    obtain ⟨active,something,source,inside⟩ := differing
    have holds : t.memory.Holds dest.toNat n.toNat := by
      unfold Memory.Holds
      rw [tracks.refines.length]
      exact Nat.not_lt.mp inside
    have within := tracks.within k
    have present : src.toNat + n.toNat ≤ ((module.segmentBytes k).take (s.lengths k).toNat).length := by
      simp only [List.length_take]
      omega
    have copied := init_refines tracks.refines dest ⟨module.segmentBytes k,s.lengths k,within⟩ src n
    simp only [executeMemory,specified,performOn,HostArray.data] at copied
    rw [Memory.init_accepted present holds,Run.bind_done (Run.get_apply s.host)] at copied
    have refused : t.memory.init dest.toNat (t.segments k) src.toNat n.toNat = none := by
      rw [tracks.segments k,if_neg active]
      apply Memory.init_refused
      rintro ⟨empty,_⟩
      exact something (Nat.le_zero.mp empty)
    cases ran : (wasmMemoryInit s.host.wasmMemory0 dest (module.segmentBytes k) (s.lengths k) src n).result
        (fun _ => Result.unit) s.host with
    | done value h =>
      refine ⟨value,{s with host := h},.trap .outOfBoundsMemory,t,?_,specified_refused refused⟩
      simp only [executeData,runDataStatement,wasmCWriteMemoryInitExpr,onHost,ran]
    | stopped reason h => rw [ran] at copied; cases copied
  | dataDrop k => exact (differing trivial).elim
  | access op => exact (differing trivial).elim

theorem onHost_done {r : Runtime.Run α} {value : α} (ran : onHost r s = .done value s') :
    r s.host = .done value s'.host ∧ s'.lengths = s.lengths := by
  unfold onHost at ran
  cases inner : r s.host with
  | done result h => rw [inner] at ran; cases ran; exact ⟨rfl,rfl⟩
  | stopped reason h => rw [inner] at ran; cases ran

theorem statements_cons {statement : MemoryStatement} {rest : List MemoryStatement}
    (ran : runMemoryStatements arena globals module (statement :: rest) s = .done () s') :
    ∃ middle, runMemoryStatement arena globals module statement s = .done () middle ∧
      runMemoryStatements arena globals module rest middle = .done () s' := by
  cases first : runMemoryStatement arena globals module statement s with
  | done value middle =>
    rw [runMemoryStatements,Run.bind_done first] at ran
    exact ⟨middle,rfl,ran⟩
  | stopped reason middle =>
    rw [runMemoryStatements,Run.bind_stopped first] at ran
    cases ran

-- Allocations and loads leave the length variables alone, so an active segment
-- keeps its length.
theorem statements_lengths {statements : List MemoryStatement}
    (ran : runMemoryStatements arena globals module statements s = .done () s') : s'.lengths = s.lengths := by
  induction statements generalizing s with
  | nil => cases ran; rfl
  | cons statement rest ih =>
    obtain ⟨middle,first,remaining⟩ := statements_cons ran
    rw [ih remaining]
    cases statement with
    | allocate min max => exact (onHost_done first).2
    | loadData offset k length => exact (onHost_done first).2

-- LOAD_DATA names an array with its own length.
def Exact (module : WasmMemoryModule) : MemoryStatement → Prop
  | .allocate _ _ => True
  | .loadData _ k length => length = wasmCWriteDataSegments module k

theorem written_exact (module : WasmMemoryModule) : ∀ statement ∈ wasmCWriteInitMemories module,
    Exact module statement := by
  intro statement present
  unfold wasmCWriteInitMemories at present
  split at present
  · rcases List.mem_append.mp present with allocation | load
    · obtain ⟨memory,_,rfl⟩ := List.mem_map.mp allocation
      trivial
    · obtain ⟨loads,written,inside⟩ := List.mem_flatten.mp load
      obtain ⟨k,bound,rfl⟩ := List.mem_mapIdx.mp written
      unfold writeSegmentLoad at inside
      split at inside
      · cases inside
      · rw [List.mem_singleton.mp inside]
        show _ = BitVec.ofNat 32 (module.segmentBytes k).length
        simp [WasmMemoryModule.segmentBytes,bound]
  · cases present

theorem statements_refine {statements : List MemoryStatement} {m : Memory} (refines : Refines arena s.host m)
    (exactly : ∀ statement ∈ statements, Exact module statement)
    (ran : runMemoryStatements arena globals module statements s = .done () s') :
    ∃ m', Refines arena s'.host m' := by
  induction statements generalizing s m with
  | nil => cases ran; exact ⟨m,refines⟩
  | cons statement rest ih =>
    obtain ⟨middle,first,remaining⟩ := statements_cons ran
    have later := fun other present => exactly other (List.mem_cons_of_mem _ present)
    cases statement with
    | allocate min max =>
      -- a second allocation traps
      have set : s.host.wasmMemory0.data ≠ 0 := by
        rw [refines.sized.placed]
        exact arena.placed
      have made := (onHost_done first).1
      unfold wasmMemoryAllocate at made
      rw [Run.bind_done (Run.get_apply _),if_pos (.inr (.inl set))] at made
      cases made
    | loadData offset k length =>
      have own : length = wasmCWriteDataSegments module k := exactly _ (List.mem_cons_self ..)
      have within : length.toNat ≤ (module.segmentBytes k).length := by
        rw [own]
        exact Nat.le_of_eq (written_length module k)
      have agree := loadData_refines refines (ConstantExpr.value globals offset) ⟨module.segmentBytes k,length,within⟩
      have done := (onHost_done first).1
      have whole : executeMemory (.loadData (ConstantExpr.value globals offset) ⟨module.segmentBytes k,length,within⟩)
          s.host = .done .unit middle.host := Run.bind_done done
      rw [whole] at agree
      cases spec : specified (.loadData (ConstantExpr.value globals offset) ⟨module.segmentBytes k,length,within⟩) m with
      | done value m' =>
        rw [spec] at agree
        cases agree with
        | done next => exact ih next later remaining
      | stopped reason m' => rw [spec] at agree; cases agree

theorem loaded_refines (loaded : Loaded arena globals module s) :
    (∃ m, Refines arena s.host m) ∧ s.lengths = wasmCWriteDataSegments module := by
  obtain ⟨start,lengths,memory,ran⟩ := loaded
  refine ⟨?_,(statements_lengths ran).trans lengths⟩
  have exactly := written_exact module
  split at memory
  · obtain ⟨min,max,started⟩ := memory
    exact statements_refine (started_refines started) exactly ran
  · obtain ⟨own,unset,zero⟩ := memory
    unfold wasmCWriteInitMemories at ran exactly
    rw [if_pos own] at ran exactly
    cases memories : module.memories with
    | nil => rw [memories] at own; cases own
    | cons first rest =>
      rw [memories,List.map_cons,List.cons_append] at ran exactly
      obtain ⟨middle,allocated,remaining⟩ := statements_cons ran
      have started : Started arena first.min first.max middle.host :=
        ⟨start.host,false,zero,(onHost_done allocated).1⟩
      exact statements_refine (started_refines started)
        (fun other present => exactly other (List.mem_cons_of_mem _ present)) remaining

end

-- The translated module from its instantiation on against the specification's machine.
theorem data_segments (arena : Arena) (globals : Nat → U32) (module : WasmMemoryModule) (s : Instance)
    (loaded : Loaded arena globals module s) : ∃ m, Refines arena s.host m ∧ ∀ ops,
      ((observe (executeData module) ops s).1 = (observe specifiedData ops (afterInstantiation module m)).1 ∧
        Agree (Tracks arena module) (observe (executeData module) ops s).2
          (observe specifiedData ops (afterInstantiation module m)).2) ↔
      Along (Conforming module) (executeData module) ops s := by
  obtain ⟨⟨m,refines⟩,lengths⟩ := loaded_refines loaded
  refine ⟨m,refines,fun ops => observe_exact (fun op s t tracks conforming => conforming_agrees op tracks conforming)
    (fun op s t tracks differing => differing_continues op tracks differing) ops ⟨refines,fun k => ?_,fun k => ?_⟩⟩
  · exact .inl (by rw [lengths])
  · show (if module.passive k then module.segmentBytes k else []) = _
    rw [lengths,written_length,List.take_length]

namespace Controls
open Runtime.Controls

-- One page and one active segment holding a single byte.
def active : WasmMemoryModule := ⟨[],[⟨1,1⟩],[⟨false,.i32Const 0,[7],by decide⟩]⟩

def loadedActive : Instance :=
  (runMemoryStatements arena (fun _ => 0) active (wasmCWriteInitMemories active)
    ⟨fresh,wasmCWriteDataSegments active⟩).state

theorem active_loaded : Loaded arena (fun _ => 0) active loadedActive :=
  ⟨⟨fresh,wasmCWriteDataSegments active⟩,rfl,⟨by decide,rfl,fun _ _ => rfl⟩,rfl⟩

def readActive : List DataOperation := [.memoryInit 0 8 0 1]
end Controls

theorem data_segments_active : ∃ m, Refines Runtime.Controls.arena Controls.loadedActive.host m ∧ ∀ ops,
    ((observe (executeData Controls.active) ops Controls.loadedActive).1 =
        (observe specifiedData ops (afterInstantiation Controls.active m)).1 ∧
      Agree (Tracks Runtime.Controls.arena Controls.active) (observe (executeData Controls.active) ops
        Controls.loadedActive).2 (observe specifiedData ops (afterInstantiation Controls.active m)).2) ↔
    Along (Conforming Controls.active) (executeData Controls.active) ops Controls.loadedActive :=
  data_segments Runtime.Controls.arena (fun _ => 0) Controls.active Controls.loadedActive Controls.active_loaded

-- The specification traps: the segment was dropped by instantiation. The
-- translated code copies the byte and goes on.
theorem active_segment_readable : Loaded Runtime.Controls.arena (fun _ => 0) Controls.active Controls.loadedActive ∧
    (observe (executeData Controls.active) Controls.readActive Controls.loadedActive).1 = [.unit] ∧
    ∀ m, (observe specifiedData Controls.readActive (afterInstantiation Controls.active m)).1 = [] := by
  refine ⟨Controls.active_loaded,rfl,fun m => ?_⟩
  have refused : (afterInstantiation Controls.active m).memory.init 8 [] 0 1 = none :=
    Memory.init_refused fun inside => absurd inside.1 (by decide)
  have traps : specifiedData (.memoryInit 0 8 0 1) (afterInstantiation Controls.active m) =
      .stopped (.trap .outOfBoundsMemory) (afterInstantiation Controls.active m) := specified_refused refused
  simp only [Controls.readActive,observe,traps]

end SandboxStack.DataSegments
