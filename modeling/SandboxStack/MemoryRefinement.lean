import SandboxStack.ByteMemory
import SandboxStack.RuntimeContainment

namespace SandboxStack.Runtime
open ByteMemory LittleEndian Trapping

-- `r` runs to its end with `value`, changing nothing but the bytes.
def Leaves (r : Run α) (h : Host) (value : α) (bytes : Nat → U8) : Prop :=
  ∃ log, r h = .done value {h with bytes := bytes,log := log}

theorem leaves_pure (h : Host) (value : α) : Leaves (pure value) h value h.bytes := ⟨h.log,rfl⟩

theorem leaves_nothing (h : Host) (d : Nat) : Leaves (pure ()) h () (overwrite h.bytes d []) := by
  rw [overwrite_nil]
  exact leaves_pure h ()

theorem leaves_bind {first : Run α} {next : α → Run β} {h : Host} {value : α} {result : β} {middle last : Nat → U8}
    (one : Leaves first h value middle)
    (two : ∀ log, Leaves (next value) {h with bytes := middle,log := log} result last) :
    Leaves (first >>= next) h result last := by
  obtain ⟨log,ran⟩ := one
  obtain ⟨log',rest⟩ := two log
  exact ⟨log',by rw [Run.bind_done ran,rest]⟩

theorem readByte_leaves (h : Host) (a : Nat) : Leaves (readByte a) h (h.bytes a) h.bytes := ⟨_,rfl⟩

theorem writeByte_leaves (h : Host) (a : Nat) (b : U8) :
    Leaves (writeByte a b) h () (Function.update h.bytes a b) := ⟨_,rfl⟩

theorem copyForward_leaves {d s n : Nat} (h : Host) (below : d ≤ s) :
    Leaves (copyForward d s n) h () (overwrite h.bytes d (window h.bytes s n)) := by
  induction n generalizing d s h with
  | zero => exact leaves_nothing h d
  | succ n ih =>
    refine leaves_bind (readByte_leaves h s) fun log => leaves_bind (writeByte_leaves _ d _) fun log' => ?_
    have rest := ih {h with bytes := Function.update h.bytes d (h.bytes s),log := log'} (Nat.succ_le_succ below)
    -- the bytes still to be read lie above the one just written
    have kept : window (Function.update h.bytes d (h.bytes s)) (s + 1) n = window h.bytes (s + 1) n :=
      window_same fun i _ => Function.update_of_ne (by omega) _ _
    simpa only [kept,overwrite_cons,window_succ] using rest

theorem copyBackward_leaves {d s n : Nat} (h : Host) (above : s ≤ d) :
    Leaves (copyBackward (d + n) (s + n) n) h () (overwrite h.bytes d (window h.bytes s n)) := by
  induction n generalizing h with
  | zero => exact leaves_nothing h d
  | succ n ih =>
    refine leaves_bind (readByte_leaves h (s + n)) fun log => leaves_bind (writeByte_leaves _ (d + n) _) fun log' => ?_
    have rest := ih {h with bytes := Function.update h.bytes (d + n) (h.bytes (s + n)),log := log'}
    have kept : window (Function.update h.bytes (d + n) (h.bytes (s + n))) s n = window h.bytes s n :=
      window_same fun i _ => Function.update_of_ne (by omega) _ _
    have last : overwrite (Function.update h.bytes (d + (window h.bytes s n).length) (h.bytes (s + n))) d
        (window h.bytes s n) = overwrite h.bytes d (window h.bytes s n ++ [h.bytes (s + n)]) := overwrite_concat
    rw [window_length] at last
    rw [window_concat,← last]
    rw [kept] at rest
    exact rest

-- Whichever way the loop runs, the source is taken as it was before the call.
theorem memmove_leaves (h : Host) (d s n : Nat) :
    Leaves (memmove d s n) h () (overwrite h.bytes d (window h.bytes s n)) := by
  unfold memmove
  split
  · exact copyForward_leaves h (by omega)
  · exact copyBackward_leaves h (by omega)

theorem memset_leaves (h : Host) (d n : Nat) (c : U8) :
    Leaves (memset d c n) h () (overwrite h.bytes d (List.replicate n c)) := by
  induction n generalizing d h with
  | zero => exact leaves_nothing h d
  | succ n ih =>
    refine leaves_bind (writeByte_leaves h d c) fun log => ?_
    simpa only [overwrite_cons,List.replicate_succ] using
      ih {h with bytes := Function.update h.bytes d c,log := log} (d + 1)

theorem memcpyOut_leaves (h : Host) (s n : Nat) : Leaves (memcpyOut s n) h (window h.bytes s n) h.bytes := by
  induction n generalizing s h with
  | zero => exact leaves_pure h []
  | succ n ih =>
    rw [window_succ]
    exact leaves_bind (readByte_leaves h s) fun log =>
      leaves_bind (ih {h with log := log} (s + 1)) fun log' => leaves_pure _ _

theorem memcpyIn_leaves (h : Host) (d : Nat) (new : List U8) :
    Leaves (memcpyIn d new) h () (overwrite h.bytes d new) := by
  induction new generalizing d h with
  | nil => exact leaves_nothing h d
  | cons b rest ih =>
    refine leaves_bind (writeByte_leaves h d b) fun log => ?_
    simpa only [overwrite_cons] using ih {h with bytes := Function.update h.bytes d b,log := log} (d + 1)

theorem memcpySegment_leaves {seg : List U8} {d i n : Nat} (h : Host) (inside : i + n ≤ seg.length) :
    Leaves (memcpySegment d seg i n) h () (overwrite h.bytes d (slice seg i n)) := by
  induction n generalizing d i h with
  | zero => exact leaves_nothing h d
  | succ n ih =>
    refine leaves_bind ⟨_,rfl⟩ fun log => leaves_bind (writeByte_leaves _ d _) fun log' => ?_
    have rest := ih (d := d + 1) (i := i + 1)
      {h with bytes := Function.update h.bytes d (seg.getD i 0),log := log'} (by omega)
    have here : seg.getD i 0 = seg[i] := by simp [List.getD_eq_getElem?_getD,show i < seg.length by omega]
    have cut : slice seg i (n + 1) = seg.getD i 0 :: slice seg (i + 1) n := by
      rw [here]
      simp only [slice]
      rw [List.drop_eq_getElem_cons (by omega),List.take_succ_cons]
    simpa only [overwrite_cons,cut] using rest

-- A host array and the length the call names with it.
structure HostArray where
  bytes : List U8
  len : U32
  within : len.toNat ≤ bytes.length

-- What generated code does to its memory. `memory.size` is read off the record.
inductive MemoryOperation where
  | load (accessor : LoadAccessor) (a : U32)
  | store (accessor : StoreAccessor) (a : U32) (v : U64)
  | size
  | grow (delta : U32)
  | copy (da sa n : U32)
  | fill (da v n : U32)
  | loadData (o : U32) (i : HostArray)
  | init (dest : U32) (seg : HostArray) (src n : U32)

def executeMemory (op : MemoryOperation) : Run Result := do
  let h ← Trapping.Run.get
  let m := h.wasmMemory0
  match op with
  | .load accessor a => accessor.run m a
  | .store accessor a v => (accessor.run m a v).result fun _ => .unit
  | .size => return .u32 m.pages
  | .grow delta => (wasmMemoryGrow delta).result .u32
  | .copy da sa n => (wasmMemoryCopy m m da sa n).result fun _ => .unit
  | .fill da v n => (wasmMemoryFill m da v n).result fun _ => .unit
  | .loadData o i => (loadData m o i.bytes i.len).result fun _ => .unit
  | .init dest seg src n => (wasmMemoryInit m dest seg.bytes seg.len src n).result fun _ => .unit

-- The abstract machine. An access takes as many bytes as its name says and
-- extends them as it says.
def LoadAccessor.signed : LoadAccessor → Bool
  | .i32Load8S | .i64Load8S | .i32Load16S | .i64Load16S | .i64Load32S => true
  | _ => false

def LoadAccessor.wide : LoadAccessor → Bool
  | .i32Load | .f32Load | .i32Load8S | .i32Load8U | .i32Load16S | .i32Load16U => false
  | _ => true

def extend (signed : Bool) (w : Nat) (v : BitVec n) : BitVec w :=
  if signed then v.signExtend w else v.setWidth w

def LoadAccessor.value (accessor : LoadAccessor) (bytes : List U8) : Result :=
  let v := ofBytes accessor.bytes bytes
  if accessor.wide then .u64 (extend accessor.signed 64 v) else .u32 (extend accessor.signed 32 v)

def HostArray.data (i : HostArray) : List U8 := i.bytes.take i.len.toNat

def answer (m : Memory) : Option (Result × Memory) → Outcome Stop Memory Result
  | some (value,m') => .done value m'
  | none => .stopped (.trap .outOfBoundsMemory) m

def silently (m : Option Memory) : Option (Result × Memory) := m.map fun m' => (.unit,m')

def performOn (m : Memory) : MemoryOperation → Option (Result × Memory)
  | .load accessor a => (m.load a.toNat accessor.bytes).map fun bytes => (accessor.value bytes,m)
  | .store accessor a v => silently (m.store a.toNat (leBytes accessor.bytes v.toNat))
  | .size => some (.u32 (BitVec.ofNat 32 m.pages),m)
  | .grow delta =>
    match m.grow delta.toNat with
    | some m' => some (.u32 (BitVec.ofNat 32 m.pages),m')
    | none => some (.u32 (-1),m)
  | .copy da sa n => silently (m.copy da.toNat sa.toNat n.toNat)
  | .fill da v n => silently (m.fill da.toNat (v.setWidth 8) n.toNat)
  | .loadData o i => silently (m.store o.toNat i.data)
  | .init dest seg src n => silently (m.init dest.toNat seg.data src.toNat n.toNat)

def specified (op : MemoryOperation) : Trapping.Run Stop Memory Result := fun m => answer m (performOn m op)

-- The host memory that stands for an abstract one. Beyond the current size the
-- arena is still as the loader left it: growth relies on that.
structure Refines (arena : Arena) (h : Host) (m : Memory) : Prop where
  sized : Sized arena h.wasmMemory0
  bytes : window h.bytes h.wasmMemory0.data h.wasmMemory0.size.toNat = m.bytes
  pages : h.wasmMemory0.pages.toNat = m.pages
  maxPages : h.wasmMemory0.maxPages.toNat = m.maxPages
  untouched : ∀ i, h.wasmMemory0.size.toNat ≤ i → i < arena.wasmArenaPages.toNat * 65536 →
    h.bytes (h.wasmMemory0.data + i) = 0

section
variable {arena : Arena} {h : Host} {m : Memory}

theorem Refines.length (refines : Refines arena h m) : m.bytes.length = h.wasmMemory0.size.toNat := by
  rw [← refines.bytes,window_length]

theorem Refines.holds (refines : Refines arena h m) (a n : U32) :
    Covers h.wasmMemory0 a n ↔ m.Holds a.toNat n.toNat := by
  unfold Covers Memory.Holds
  rw [refines.length]

theorem Refines.read (refines : Refines arena h m) {a n : Nat} (inside : m.Holds a n) :
    window h.bytes (h.wasmMemory0.data + a) n = slice m.bytes a n := by
  unfold Memory.Holds at inside
  rw [refines.length] at inside
  rw [← refines.bytes,window_slice inside]

theorem Refines.logged (refines : Refines arena h m) (log : List Event) : Refines arena {h with log := log} m :=
  ⟨refines.sized,refines.bytes,refines.pages,refines.maxPages,refines.untouched⟩

theorem Refines.overwrite (refines : Refines arena h m) {d : Nat} {new : List U8} (inside : m.Holds d new.length)
    (log : List Event) : Refines arena
      {h with bytes := overwrite h.bytes (h.wasmMemory0.data + d) new,log := log} (m.write d new) := by
  refine ⟨refines.sized,?_,refines.pages,refines.maxPages,?_⟩
  · show window _ _ _ = patch m.bytes d new
    rw [window_overwrite,refines.bytes]
  · intro i beyond within
    unfold Memory.Holds at inside
    rw [refines.length] at inside
    dsimp only at beyond ⊢
    rw [overwrite_beyond (by omega)]
    exact refines.untouched i beyond within

-- A run that leaves the bytes as the abstract step does agrees with it.
theorem agree_done {r : Run α} {wrap : α → Result} {value : α} {bytes : Nat → U8} {m' : Memory}
    (leaves : Leaves r h value bytes) (next : ∀ log, Refines arena {h with bytes := bytes,log := log} m') :
    Agree (Refines arena) (r.result wrap h) (.done (wrap value) m') := by
  obtain ⟨log,ran⟩ := leaves
  have wrapped : r.result wrap h = .done (wrap value) {h with bytes := bytes,log := log} := Run.bind_done ran
  rw [wrapped]
  exact .done (next log)

theorem agree_trap {r : Run Result} (refines : Refines arena h m) (traps : TrapsAtOnce r .outOfBoundsMemory) :
    Agree (Refines arena) (r h) (answer m none) := by
  rw [traps h]
  exact .stopped (refines.logged _)

theorem load_value (accessor : LoadAccessor) : ∃ (w : Nat) (conv : BitVec (8 * accessor.bytes) → BitVec w)
    (wrap : BitVec w → Result), (∀ m a, accessor.run m a = (defineLoad accessor.bytes conv m a).result wrap) ∧
      ∀ bytes, wrap (conv (ofBytes accessor.bytes bytes)) = accessor.value bytes := by
  cases accessor with
  | i32Load | f32Load => exact ⟨32,id,.u32,fun _ _ => rfl,fun _ => congrArg Result.u32 (BitVec.setWidth_eq _).symm⟩
  | i64Load | f64Load => exact ⟨64,id,.u64,fun _ _ => rfl,fun _ => congrArg Result.u64 (BitVec.setWidth_eq _).symm⟩
  | _ => exact ⟨_,_,_,fun _ _ => rfl,fun _ => rfl⟩

theorem load_refines (refines : Refines arena h m) (accessor : LoadAccessor) (a : U32) :
    Agree (Refines arena) (executeMemory (.load accessor a) h) (specified (.load accessor a) m) := by
  obtain ⟨w,conv,wrap,define,value⟩ := load_value accessor
  have run : executeMemory (.load accessor a) h = (defineLoad accessor.bytes conv h.wasmMemory0 a).result wrap h := by
    rw [← define]; rfl
  have width := accessor.bytes_small
  rw [run]
  simp only [specified,performOn,Memory.load]
  by_cases covers : Covers h.wasmMemory0 a (BitVec.ofNat 32 accessor.bytes)
  · have holds := (refines.holds _ _).mp covers
    rw [width] at holds
    rw [if_pos holds]
    have leaves : Leaves (defineLoad accessor.bytes conv h.wasmMemory0 a) h
        (conv (ofBytes accessor.bytes (slice m.bytes a.toNat accessor.bytes))) h.bytes := by
      unfold defineLoad
      rw [wasmCheck_passes covers,← refines.read holds]
      exact leaves_bind (leaves_pure h ()) fun log =>
        leaves_bind (memcpyOut_leaves {h with log := log} _ _) fun log' => leaves_pure _ _
    have done : Agree (Refines arena) ((defineLoad accessor.bytes conv h.wasmMemory0 a).result wrap h) _ :=
      agree_done leaves refines.logged
    rw [value] at done
    exact done
  · rw [if_neg fun holds => covers ((refines.holds _ _).mpr (by rwa [width]))]
    exact agree_trap refines (traps_result (traps_bind (wasmCheck_traps covers) _))

-- The two narrowings of DEFINE_STORE keep the low bytes of the value.
theorem store_bytes (accessor : StoreAccessor) : ∃ (w : Nat) (narrow : U64 → BitVec w),
    (∀ m a v, accessor.run m a v = defineStore accessor.bytes m a (narrow v)) ∧
      ∀ v, toBytes ((narrow v).setWidth (8 * accessor.bytes)) = leBytes accessor.bytes v.toNat := by
  have low : ∀ (n w : Nat) (v : U64), 8 * n ≤ w →
      toBytes ((v.setWidth w).setWidth (8 * n)) = leBytes n v.toNat := by
    intro n w v narrower
    rw [toBytes,BitVec.toNat_setWidth,BitVec.toNat_setWidth,Nat.mod_mod_of_dvd _ (Nat.pow_dvd_pow 2 narrower),
      ← pow_bytes,leBytes_mod]
  have full : ∀ (n : Nat) (v : U64), 8 * n ≤ 64 → toBytes (v.setWidth (8 * n)) = leBytes n v.toNat := by
    intro n v narrower
    have kept := low n 64 v narrower
    rwa [BitVec.setWidth_eq] at kept
  cases accessor with
  | i64Store | f64Store | i64Store8 | i64Store16 | i64Store32 =>
    refine ⟨64,id,fun _ _ _ => rfl,fun v => ?_⟩
    apply full
    decide
  | i32Store | f32Store | i32Store8 | i32Store16 =>
    refine ⟨32,BitVec.setWidth 32,fun _ _ _ => rfl,fun v => ?_⟩
    apply low
    decide

theorem store_refines (refines : Refines arena h m) (accessor : StoreAccessor) (a : U32) (v : U64) :
    Agree (Refines arena) (executeMemory (.store accessor a v) h) (specified (.store accessor a v) m) := by
  obtain ⟨w,narrow,define,bytes⟩ := store_bytes accessor
  have run : executeMemory (.store accessor a v) h =
      (defineStore accessor.bytes h.wasmMemory0 a (narrow v)).result (fun _ => .unit) h := by
    rw [← define]; rfl
  have width := accessor.bytes_small
  rw [run]
  simp only [specified,performOn,Memory.store,leBytes_length]
  by_cases covers : Covers h.wasmMemory0 a (BitVec.ofNat 32 accessor.bytes)
  · have holds := (refines.holds _ _).mp covers
    rw [width] at holds
    rw [if_pos holds]
    have leaves : Leaves (defineStore accessor.bytes h.wasmMemory0 a (narrow v)) h ()
        (overwrite h.bytes (h.wasmMemory0.data + a.toNat) (leBytes accessor.bytes v.toNat)) := by
      unfold defineStore
      dsimp only
      rw [wasmCheck_passes covers,bytes]
      exact leaves_bind (leaves_pure h ()) fun log => memcpyIn_leaves {h with log := log} _ _
    exact agree_done leaves (refines.overwrite (by rwa [leBytes_length]))
  · rw [if_neg fun holds => covers ((refines.holds _ _).mpr (by rwa [width]))]
    exact agree_trap refines (traps_result (traps_bind (wasmCheck_traps covers) _))

theorem grow_refines (refines : Refines arena h m) (delta : U32) :
    Agree (Refines arena) (executeMemory (.grow delta) h) (specified (.grow delta) m) := by
  obtain ⟨sized,bytes,pages,maxPages,untouched⟩ := refines
  have small := sized.addressable
  have clamped := sized.clamped
  simp only [specified,performOn,Memory.grow]
  have run : executeMemory (.grow delta) h = (wasmMemoryGrow delta).result .u32 h := rfl
  rw [run]
  by_cases room : m.pages + delta.toNat ≤ m.maxPages
  · have sum : (h.wasmMemory0.pages + delta).toNat = m.pages + delta.toNat := by
      rw [CInteger.add_exact (by omega),pages]
    have allowed : ¬(h.wasmMemory0.pages + delta < h.wasmMemory0.pages ∨
        h.wasmMemory0.pages + delta > h.wasmMemory0.maxPages) := by
      simp only [BitVec.lt_def,GT.gt,sum,not_or]
      omega
    have size : ((h.wasmMemory0.pages + delta) * wasmPageSize).toNat =
        h.wasmMemory0.size.toNat + delta.toNat * 65536 := by
      rw [pages_size (by omega),sized.exact_size,sum]
      omega
    have grew : wasmMemoryGrow delta h = .done h.wasmMemory0.pages {h with wasmMemory0 := {h.wasmMemory0 with
        pages := h.wasmMemory0.pages + delta,size := (h.wasmMemory0.pages + delta) * wasmPageSize}} := by
      unfold wasmMemoryGrow
      rw [Run.bind_done (Run.get_apply h),if_neg allowed]
      rfl
    have wrapped : (wasmMemoryGrow delta).result Result.u32 h = .done (.u32 h.wasmMemory0.pages) _ :=
      Run.bind_done grew
    rw [dif_pos room,wrapped]
    have old : BitVec.ofNat 32 m.pages = h.wasmMemory0.pages := by rw [← pages]; simp
    simp only [answer,old]
    refine .done ⟨grow_sized sized grew,?_,sum,maxPages,?_⟩
    · dsimp only
      rw [size,window_append,bytes]
      congr 1
      -- the new pages are arena bytes nothing has written to
      apply window_constant
      intro i inside
      rw [Nat.add_assoc]
      exact untouched _ (by omega) (by rw [sized.exact_size]; omega)
    · intro i beyond within
      dsimp only at beyond
      exact untouched i (by omega) within
  · have refused : h.wasmMemory0.pages + delta < h.wasmMemory0.pages ∨
        h.wasmMemory0.pages + delta > h.wasmMemory0.maxPages := by
      by_cases wraps : 2 ^ 32 ≤ h.wasmMemory0.pages.toNat + delta.toNat
      · exact .inl (CInteger.add_wraps.mpr wraps)
      · right
        simp only [BitVec.lt_def,GT.gt]
        rw [CInteger.add_exact (by omega)]
        omega
    have kept : wasmMemoryGrow delta h = .done (-1) h := by
      unfold wasmMemoryGrow
      rw [Run.bind_done (Run.get_apply h),if_pos refused]
      rfl
    have wrapped : (wasmMemoryGrow delta).result Result.u32 h = .done (.u32 (-1)) h := Run.bind_done kept
    rw [dif_neg room,wrapped]
    exact .done ⟨sized,bytes,pages,maxPages,untouched⟩

theorem copy_refines (refines : Refines arena h m) (da sa n : U32) :
    Agree (Refines arena) (executeMemory (.copy da sa n) h) (specified (.copy da sa n) m) := by
  have run : executeMemory (.copy da sa n) h =
      (wasmMemoryCopy h.wasmMemory0 h.wasmMemory0 da sa n).result (fun _ => .unit) h := rfl
  rw [run]
  simp only [specified,performOn,Memory.copy]
  by_cases covers : Covers h.wasmMemory0 da n ∧ Covers h.wasmMemory0 sa n
  · have dest := (refines.holds _ _).mp covers.1
    have source := (refines.holds _ _).mp covers.2
    rw [if_pos ⟨dest,source⟩]
    have length : (slice m.bytes sa.toNat n.toNat).length = n.toNat := by
      rw [← refines.read source,window_length]
    have leaves : Leaves (wasmMemoryCopy h.wasmMemory0 h.wasmMemory0 da sa n) h ()
        (ByteMemory.overwrite h.bytes (h.wasmMemory0.data + da.toNat) (slice m.bytes sa.toNat n.toNat)) := by
      unfold wasmMemoryCopy
      rw [wasmCheck_passes covers.1,wasmCheck_passes covers.2,← refines.read source]
      exact leaves_bind (leaves_pure h ()) fun log => leaves_bind (leaves_pure {h with log := log} ()) fun log' =>
        memmove_leaves {h with log := log'} _ _ _
    exact agree_done leaves (refines.overwrite (by rwa [length]))
  · rw [if_neg fun holds => covers ⟨(refines.holds _ _).mpr holds.1,(refines.holds _ _).mpr holds.2⟩]
    exact agree_trap refines (traps_result (copy_traps covers))

theorem fill_refines (refines : Refines arena h m) (da v n : U32) :
    Agree (Refines arena) (executeMemory (.fill da v n) h) (specified (.fill da v n) m) := by
  have run : executeMemory (.fill da v n) h = (wasmMemoryFill h.wasmMemory0 da v n).result (fun _ => .unit) h := rfl
  rw [run]
  simp only [specified,performOn,Memory.fill,Memory.store,List.length_replicate]
  by_cases covers : Covers h.wasmMemory0 da n
  · rw [if_pos ((refines.holds _ _).mp covers)]
    have leaves : Leaves (wasmMemoryFill h.wasmMemory0 da v n) h ()
        (ByteMemory.overwrite h.bytes (h.wasmMemory0.data + da.toNat) (List.replicate n.toNat (v.setWidth 8))) := by
      unfold wasmMemoryFill
      rw [wasmCheck_passes covers]
      exact leaves_bind (leaves_pure h ()) fun log => memset_leaves {h with log := log} _ _ _
    exact agree_done leaves (refines.overwrite (by simpa using (refines.holds _ _).mp covers))
  · rw [if_neg fun holds => covers ((refines.holds _ _).mpr holds)]
    exact agree_trap refines (traps_result (traps_bind (wasmCheck_traps covers) _))

theorem HostArray.data_length (i : HostArray) : i.data.length = i.len.toNat := by
  have within := i.within
  simp only [HostArray.data,List.length_take]
  omega

theorem loadData_refines (refines : Refines arena h m) (o : U32) (i : HostArray) :
    Agree (Refines arena) (executeMemory (.loadData o i) h) (specified (.loadData o i) m) := by
  have run : executeMemory (.loadData o i) h = (loadData h.wasmMemory0 o i.bytes i.len).result (fun _ => .unit) h := rfl
  rw [run]
  simp only [specified,performOn,Memory.store,i.data_length]
  by_cases covers : Covers h.wasmMemory0 o i.len
  · rw [if_pos ((refines.holds _ _).mp covers)]
    have leaves : Leaves (loadData h.wasmMemory0 o i.bytes i.len) h ()
        (ByteMemory.overwrite h.bytes (h.wasmMemory0.data + o.toNat) i.data) := by
      have whole : i.data = slice i.bytes 0 i.len.toNat := by simp [HostArray.data,slice]
      unfold loadData
      rw [wasmCheck_passes covers,whole]
      exact leaves_bind (leaves_pure h ()) fun log =>
        memcpySegment_leaves {h with log := log} (by simpa using i.within)
    exact agree_done leaves (refines.overwrite (by rw [i.data_length]; exact (refines.holds _ _).mp covers))
  · rw [if_neg fun holds => covers ((refines.holds _ _).mpr holds)]
    exact agree_trap refines (traps_result (traps_bind (wasmCheck_traps covers) _))

theorem init_refines (refines : Refines arena h m) (dest : U32) (seg : HostArray) (src n : U32) :
    Agree (Refines arena) (executeMemory (.init dest seg src n) h) (specified (.init dest seg src n) m) := by
  have run : executeMemory (.init dest seg src n) h =
      (wasmMemoryInit h.wasmMemory0 dest seg.bytes seg.len src n).result (fun _ => .unit) h := rfl
  rw [run]
  simp only [specified,performOn,Memory.init,seg.data_length]
  by_cases source : src.toNat + n.toNat ≤ seg.len.toNat
  · have reads := (CInteger.exceeds_false src n seg.len).mpr source
    by_cases covers : Covers h.wasmMemory0 dest n
    · have holds := (refines.holds _ _).mp covers
      rw [if_pos ⟨source,holds⟩]
      have within := seg.within
      have cut : slice seg.data src.toNat n.toNat = slice seg.bytes src.toNat n.toNat := slice_take source
      have length : (slice seg.data src.toNat n.toNat).length = n.toNat := by
        rw [cut]
        simp only [slice,List.length_take,List.length_drop]
        omega
      have leaves : Leaves (wasmMemoryInit h.wasmMemory0 dest seg.bytes seg.len src n) h ()
          (ByteMemory.overwrite h.bytes (h.wasmMemory0.data + dest.toNat) (slice seg.data src.toNat n.toNat)) := by
        unfold wasmMemoryInit
        rw [reads,wasmCheck_passes covers,cut]
        exact leaves_bind (leaves_pure h ()) fun log => memcpySegment_leaves {h with log := log} (by omega)
      exact agree_done leaves (refines.overwrite (by rwa [length]))
    · rw [if_neg fun holds => covers ((refines.holds _ _).mpr holds.2)]
      refine agree_trap refines (traps_result ?_)
      unfold wasmMemoryInit
      rw [reads]
      exact traps_bind (wasmCheck_traps covers) _
  · rw [if_neg fun holds => source holds.1]
    refine agree_trap refines (traps_result ?_)
    unfold wasmMemoryInit
    rw [(CInteger.exceeds_exact src n seg.len).mpr (Nat.not_le.mp source)]
    exact trap_at_once _

-- One step lemma for all operations: equal results, equal traps, related memories.
theorem executeMemory_refines (op : MemoryOperation) (refines : Refines arena h m) :
    Agree (Refines arena) (executeMemory op h) (specified op m) := by
  cases op with
  | load accessor a => exact load_refines refines accessor a
  | store accessor a v => exact store_refines refines accessor a v
  | size =>
    have pages : BitVec.ofNat 32 m.pages = h.wasmMemory0.pages := by rw [← refines.pages]; simp
    simp only [specified,performOn,answer,pages]
    exact .done refines
  | grow delta => exact grow_refines refines delta
  | copy da sa n => exact copy_refines refines da sa n
  | fill da v n => exact fill_refines refines da v n
  | loadData o i => exact loadData_refines refines o i
  | init dest seg src n => exact init_refines refines dest seg src n

-- The abstract memory traps exactly at these operations: a range of the memory
-- is exceeded, or the source range of a segment.
def Exceeds (size : Nat) : MemoryOperation → Prop
  | .load accessor a => size < a.toNat + accessor.bytes
  | .store accessor a _ => size < a.toNat + accessor.bytes
  | .size | .grow _ => False
  | .copy da sa n => size < da.toNat + n.toNat ∨ size < sa.toNat + n.toNat
  | .fill da _ n => size < da.toNat + n.toNat
  | .loadData o i => size < o.toNat + i.len.toNat
  | .init dest seg src n => seg.len.toNat < src.toNat + n.toNat ∨ size < dest.toNat + n.toNat

theorem absent {p : Prop} [Decidable p] {β : Type} {m : β} : (if p then some m else none) = none ↔ ¬p := by
  by_cases holds : p <;> simp [holds]

theorem specified_traps (op : MemoryOperation) (m : Memory) :
    performOn m op = none ↔ Exceeds m.bytes.length op := by
  cases op with
  | load accessor a =>
    simp only [performOn,Memory.load,Option.map_eq_none_iff,absent]
    simp only [Memory.Holds,Exceeds,Nat.not_le]
  | store accessor a v =>
    simp only [performOn,silently,Memory.store,Option.map_eq_none_iff,absent,Memory.Holds,Exceeds,Nat.not_le,
      leBytes_length]
  | size => simp [performOn,Exceeds]
  | grow delta =>
    simp only [performOn,Exceeds,iff_false]
    split
    · exact Option.some_ne_none _
    · exact Option.some_ne_none _
  | copy da sa n =>
    simp only [performOn,silently,Memory.copy,Option.map_eq_none_iff,absent]
    simp only [Memory.Holds,Exceeds,not_and_or,Nat.not_le]
  | fill da v n =>
    simp only [performOn,silently,Memory.fill,Memory.store,Option.map_eq_none_iff,absent,Memory.Holds,Exceeds,
      Nat.not_le,List.length_replicate]
  | loadData o i =>
    simp only [performOn,silently,Memory.store,Option.map_eq_none_iff,absent,Memory.Holds,Exceeds,Nat.not_le,
      i.data_length]
  | init dest seg src n =>
    simp only [performOn,silently,Memory.init,Option.map_eq_none_iff,absent,Memory.Holds,Exceeds,not_and_or,Nat.not_le,
      seg.data_length]

def currentBytes (h : Host) : List U8 := window h.bytes h.wasmMemory0.data h.wasmMemory0.size.toNat

-- Traps happen exactly beyond the current size, and then no byte has changed.
def TrapsExactly (op : MemoryOperation) (h : Host) : Prop :=
  ((∃ reason after, executeMemory op h = .stopped reason after) ↔ Exceeds h.wasmMemory0.size.toNat op) ∧
    ∀ reason after, executeMemory op h = .stopped reason after →
      reason = .trap .outOfBoundsMemory ∧ currentBytes after = currentBytes h

theorem traps_exactly (refines : Refines arena h m) (op : MemoryOperation) : TrapsExactly op h := by
  have agree := executeMemory_refines op refines
  have traps := specified_traps op m
  rw [refines.length] at traps
  unfold TrapsExactly
  rw [← traps]
  unfold specified at agree
  cases outcome : performOn m op with
  | none =>
    rw [outcome] at agree
    cases ran : executeMemory op h with
    | done value after => rw [ran] at agree; cases agree
    | stopped reason after =>
      rw [ran] at agree
      cases agree with
      | stopped same =>
        refine ⟨⟨fun _ => rfl,fun _ => ⟨_,_,rfl⟩⟩,?_⟩
        intro reason' after' stop
        cases stop
        exact ⟨rfl,same.bytes.trans refines.bytes.symm⟩
  | some pair =>
    rw [outcome] at agree
    cases ran : executeMemory op h with
    | done value after =>
      refine ⟨⟨fun stopped => ?_,fun none => by cases none⟩,fun _ _ stop => by cases stop⟩
      obtain ⟨_,_,stop⟩ := stopped
      cases stop
    | stopped reason after => rw [ran] at agree; cases agree

end

-- The loader hands over a zero arena, and wasmMemoryAllocate has returned.
def Started (arena : Arena) (initialPages maxPages : U32) (h : Host) : Prop :=
  ∃ before shared, (∀ i < arena.wasmArenaPages.toNat * 65536, before.bytes (arena.wasmArena + i) = 0) ∧
    wasmMemoryAllocate arena initialPages maxPages shared before = .done () h

theorem clampPages_min (arena : Arena) (maxPages : U32) :
    (clampPages arena maxPages).toNat = min maxPages.toNat arena.wasmArenaPages.toNat := by
  unfold clampPages
  split
  · rename_i above
    exact (Nat.min_eq_right (Nat.le_of_lt above)).symm
  · rename_i below
    exact (Nat.min_eq_left (Nat.not_lt.mp fun above => below above)).symm

theorem started_record {arena : Arena} {initialPages maxPages : U32} {h : Host}
    (started : Started arena initialPages maxPages h) : Sized arena h.wasmMemory0 ∧
      h.wasmMemory0.pages = initialPages ∧ h.wasmMemory0.maxPages = clampPages arena maxPages ∧
        ∀ i < arena.wasmArenaPages.toNat * 65536, h.bytes (arena.wasmArena + i) = 0 := by
  obtain ⟨before,shared,zero,ran⟩ := started
  have sized := allocate_sized ran
  unfold wasmMemoryAllocate at ran
  rw [Run.bind_done (Run.get_apply before)] at ran
  split at ran
  · cases ran
  · cases ran
    exact ⟨sized,rfl,rfl,zero⟩

theorem Started.room {arena : Arena} {initialPages maxPages : U32} {h : Host}
    (started : Started arena initialPages maxPages h) :
    initialPages.toNat ≤ min maxPages.toNat arena.wasmArenaPages.toNat := by
  obtain ⟨sized,pages,max,_⟩ := started_record started
  have grown := sized.grown
  rwa [pages,max,clampPages_min] at grown

theorem started_refines {arena : Arena} {initialPages maxPages : U32} {h : Host}
    (started : Started arena initialPages maxPages h) :
    Refines arena h (blank initialPages.toNat (min maxPages.toNat arena.wasmArenaPages.toNat) started.room) := by
  obtain ⟨sized,pages,max,zero⟩ := started_record started
  refine ⟨sized,?_,congrArg BitVec.toNat pages,?_,?_⟩
  · show _ = List.replicate (initialPages.toNat * 65536) 0
    rw [sized.exact_size,pages,sized.placed]
    have fits : initialPages.toNat ≤ arena.wasmArenaPages.toNat := by
      rw [← pages]
      exact Nat.le_trans sized.grown sized.clamped
    exact window_constant fun i inside => zero i (Nat.lt_of_lt_of_le inside (Nat.mul_le_mul_right 65536 fits))
  · rw [max,clampPages_min,blank_maxPages]
  · intro i _ within
    rw [sized.placed]
    exact zero i within

theorem memory_refines (arena : Arena) (initialPages maxPages : U32) (h : Host)
    (started : Started arena initialPages maxPages h) (ops : List MemoryOperation) :
    (observe executeMemory ops h).1 = (observe specified ops (blank initialPages.toNat
        (min maxPages.toNat arena.wasmArenaPages.toNat) started.room)).1 ∧
      Agree (Refines arena) (observe executeMemory ops h).2 (observe specified ops (blank initialPages.toNat
        (min maxPages.toNat arena.wasmArenaPages.toNat) started.room)).2 ∧
      ∀ after, (observe executeMemory ops h).2 = .done () after → ∀ op, TrapsExactly op after := by
  obtain ⟨results,ends⟩ := observe_agree (fun op _ _ refines => executeMemory_refines op refines) ops
    (started_refines started)
  refine ⟨results,ends,fun after finished op => ?_⟩
  rw [finished] at ends
  cases last : (observe specified ops (blank initialPages.toNat
      (min maxPages.toNat arena.wasmArenaPages.toNat) started.room)).2 with
  | done _ m =>
    rw [last] at ends
    cases ends with
    | done refines => exact traps_exactly refines op
  | stopped reason m => rw [last] at ends; cases ends

namespace Controls
theorem onePage_started : Started arena 1 8 onePage := ⟨fresh,false,fun _ _ => rfl,rfl⟩

-- A store at the end of the page, an overlapping copy, growth, a sign
-- extension out of the new page, and a load that reaches past it.
def probe : List MemoryOperation :=
  [.store .i32Store 65532 0x80FF7F01,.copy 65533 65532 3,.grow 1,.load .i64Load8S 65535,
    .size,.load .i32Load 131069]
end Controls

theorem memory_refines_probe :
    (observe executeMemory Controls.probe Controls.onePage).1 =
        (observe specified Controls.probe (blank (1 : U32).toNat
          (min (8 : U32).toNat Controls.arena.wasmArenaPages.toNat) Controls.onePage_started.room)).1 ∧
      Agree (Refines Controls.arena) (observe executeMemory Controls.probe Controls.onePage).2
        (observe specified Controls.probe (blank (1 : U32).toNat
          (min (8 : U32).toNat Controls.arena.wasmArenaPages.toNat) Controls.onePage_started.room)).2 ∧
      ∀ after, (observe executeMemory Controls.probe Controls.onePage).2 = .done () after →
        ∀ op, TrapsExactly op after :=
  memory_refines Controls.arena 1 8 Controls.onePage Controls.onePage_started Controls.probe

end SandboxStack.Runtime
