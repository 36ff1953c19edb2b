import SandboxStack.RuntimeMemory

namespace SandboxStack.Runtime
open LittleEndian Trapping

-- What wasmMemoryAllocate establishes and wasmMemoryGrow keeps. The product is
-- one of natural numbers: no 32-bit wrap is hidden in it.
structure Sized (arena : Arena) (m : WasmMemory) : Prop where
  placed : m.data = arena.wasmArena
  exact_size : m.size.toNat = m.pages.toNat * 65536
  grown : m.pages.toNat ≤ m.maxPages.toNat
  clamped : m.maxPages.toNat ≤ arena.wasmArenaPages.toNat
  addressable : arena.wasmArenaPages.toNat < 65536

theorem pages_size {pages : U32} (small : pages.toNat < 65536) :
    (pages * wasmPageSize).toNat = pages.toNat * 65536 := by
  have page : wasmPageSize.toNat = 65536 := rfl
  rw [CInteger.mul_exact (by rw [page]; omega),page]

def InMemory (m : WasmMemory) (addr : Nat) : Prop := m.data ≤ addr ∧ addr < m.data + m.size.toNat

def RangeIn (m : WasmMemory) (addr len : Nat) : Prop := m.data ≤ addr ∧ addr + len ≤ m.data + m.size.toNat

def Permitted (n : Nat) (a : Int) : Prop :=
  (n = sysRead ∧ a = 0) ∨ (n = sysWrite ∧ (a = 1 ∨ a = 2)) ∨ n = sysExit

def Buffer.Contained (m : WasmMemory) (len : Nat) : Buffer → Prop
  | .host addr => RangeIn m addr len
  | .message text => len ≤ text.length
  | .none => True

def Event.Contained (m : WasmMemory) : Event → Prop
  | .read addr | .write addr => InMemory m addr
  | .segment bytes index => index < bytes.length
  | .syscall n a b c => Permitted n a ∧ b.Contained m c

-- From one state to a later one: no host byte outside the guest memory changes,
-- and every event in between is contained.
structure Inside (m : WasmMemory) (before after : Host) : Prop where
  kept : ∀ addr, ¬InMemory m addr → after.bytes addr = before.bytes addr
  events : ∃ new, after.log = new ++ before.log ∧ ∀ e ∈ new, e.Contained m

-- Only allocation and growth change the memory record.
structure Touches (m : WasmMemory) (before after : Host) : Prop extends Inside m before after where
  frame : after.wasmMemory0 = before.wasmMemory0

theorem touches_silent {m : WasmMemory} {before after : Host} (kept : ∀ addr, ¬InMemory m addr →
    after.bytes addr = before.bytes addr) (same : after.log = before.log)
    (frame : after.wasmMemory0 = before.wasmMemory0) : Touches m before after :=
  ⟨⟨kept,[],same,by simp⟩,frame⟩

theorem Touches.refl (m : WasmMemory) (h : Host) : Touches m h h := touches_silent (fun _ _ => rfl) rfl rfl

theorem Touches.trans {m : WasmMemory} {a b c : Host} (one : Touches m a b) (two : Touches m b c) :
    Touches m a c := by
  obtain ⟨⟨kept,first,logged,inside⟩,same⟩ := one
  obtain ⟨⟨kept',second,logged',inside'⟩,same'⟩ := two
  refine ⟨⟨fun addr out => (kept' addr out).trans (kept addr out),second ++ first,?_,?_⟩,same'.trans same⟩
  · rw [logged',logged,List.append_assoc]
  · intro e present
    rcases List.mem_append.mp present with new | old
    · exact inside' e new
    · exact inside e old

abbrev Stays (m : WasmMemory) (r : Run α) : Prop := Run.Completes (Touches m) r

theorem stays_pure (m : WasmMemory) (value : α) : Stays m (pure value) :=
  Run.completes_pure (Touches.refl m) value

theorem stays_bind {m : WasmMemory} {first : Run α} {next : α → Run β} (one : Stays m first)
    (two : ∀ value, Stays m (next value)) : Stays m (first >>= next) :=
  Run.completes_bind (R := Touches m) Touches.trans one two

theorem touches_event {m : WasmMemory} {e : Event} (inside : e.Contained m) (h : Host) :
    Touches m h {h with log := e :: h.log} := ⟨⟨fun _ _ => rfl,[e],rfl,by simpa using inside⟩,rfl⟩

theorem stays_logged {m : WasmMemory} {e : Event} (inside : e.Contained m) : Stays m (logged e) :=
  fun h => ⟨(),_,rfl,touches_event inside h⟩

theorem stays_readByte {m : WasmMemory} {addr : Nat} (inside : InMemory m addr) : Stays m (readByte addr) :=
  stays_bind (stays_logged inside) fun _ h => ⟨_,h,rfl,Touches.refl m h⟩

theorem stays_writeByte {m : WasmMemory} {addr : Nat} (b : U8) (inside : InMemory m addr) :
    Stays m (writeByte addr b) :=
  stays_bind (stays_logged inside) fun _ h => ⟨(),_,rfl,touches_silent (fun a out =>
    Function.update_of_ne (fun same : a = addr => out (by rwa [same])) _ _) rfl rfl⟩

theorem RangeIn.head {m : WasmMemory} {addr n : Nat} (range : RangeIn m addr (n+1)) : InMemory m addr :=
  ⟨range.1,by have := range.2; omega⟩

theorem RangeIn.tail {m : WasmMemory} {addr n : Nat} (range : RangeIn m addr (n+1)) : RangeIn m (addr+1) n :=
  ⟨by have := range.1; omega,by have := range.2; omega⟩

theorem copyForward_stays {m : WasmMemory} {d s n : Nat} (dest : RangeIn m d n) (source : RangeIn m s n) :
    Stays m (copyForward d s n) := by
  induction n generalizing d s with
  | zero => exact stays_pure m ()
  | succ n ih =>
    exact stays_bind (stays_readByte source.head) fun b =>
      stays_bind (stays_writeByte b dest.head) fun _ => ih dest.tail source.tail

-- The backward loop enters with both pointers one past the end of their range.
theorem copyBackward_stays {m : WasmMemory} {d s n : Nat} (dest : RangeIn m d n) (source : RangeIn m s n) :
    Stays m (copyBackward (d+n) (s+n) n) := by
  induction n with
  | zero => exact stays_pure m ()
  | succ n ih =>
    obtain ⟨low,high⟩ := dest
    obtain ⟨low',high'⟩ := source
    have rest := ih ⟨low,by omega⟩ ⟨low',by omega⟩
    exact stays_bind (stays_readByte ⟨by omega,by omega⟩) fun b =>
      stays_bind (stays_writeByte b ⟨by omega,by omega⟩) fun _ => rest

theorem memmove_stays {m : WasmMemory} {d s n : Nat} (dest : RangeIn m d n) (source : RangeIn m s n) :
    Stays m (memmove d s n) := by
  unfold memmove
  split
  · exact copyForward_stays dest source
  · exact copyBackward_stays dest source

theorem memset_stays {m : WasmMemory} {d n : Nat} (c : U8) (dest : RangeIn m d n) : Stays m (memset d c n) := by
  induction n generalizing d with
  | zero => exact stays_pure m ()
  | succ n ih => exact stays_bind (stays_writeByte c dest.head) fun _ => ih dest.tail

theorem memcpyOut_stays {m : WasmMemory} {s n : Nat} (source : RangeIn m s n) : Stays m (memcpyOut s n) := by
  induction n generalizing s with
  | zero => exact stays_pure m []
  | succ n ih =>
    exact stays_bind (stays_readByte source.head) fun b =>
      stays_bind (ih source.tail) fun rest => stays_pure m (b :: rest)

theorem memcpyIn_stays {m : WasmMemory} {d : Nat} {bytes : List U8} (dest : RangeIn m d bytes.length) :
    Stays m (memcpyIn d bytes) := by
  induction bytes generalizing d with
  | nil => exact stays_pure m ()
  | cons b rest ih => exact stays_bind (stays_writeByte b dest.head) fun _ => ih dest.tail

theorem memcpySegment_stays {m : WasmMemory} {d i n : Nat} {seg : List U8} (dest : RangeIn m d n)
    (source : i + n ≤ seg.length) : Stays m (memcpySegment d seg i n) := by
  induction n generalizing d i with
  | zero => exact stays_pure m ()
  | succ n ih =>
    have inside : (Event.segment seg i).Contained m := by show i < seg.length; omega
    exact stays_bind (stays_logged inside) fun _ =>
      stays_bind (stays_writeByte _ dest.head) fun _ => ih dest.tail (by omega)

def trapEvents (t : Trap) : List Event :=
  [.syscall sysExit (100 + t.code) .none 0,.syscall sysWrite 2 (.message (trapMessage t)) 8]

-- The trap was taken before anything else happened.
def TrapsAtOnce (r : Run α) (t : Trap) : Prop :=
  ∀ h, r h = .stopped (.trap t) {h with log := trapEvents t ++ h.log}

theorem trap_at_once (t : Trap) : TrapsAtOnce (trap t : Run α) t := fun _ => rfl

theorem traps_bind {first : Run α} {t : Trap} (one : TrapsAtOnce first t) (next : α → Run β) :
    TrapsAtOnce (first >>= next) t := fun h => Run.bind_stopped (one h)

def Covers (m : WasmMemory) (addr n : U32) : Prop := addr.toNat + n.toNat ≤ m.size.toNat

theorem Covers.range {m : WasmMemory} {addr n : U32} (covers : Covers m addr n) :
    RangeIn m (m.data + addr.toNat) n.toNat :=
  ⟨by omega,by have : addr.toNat + n.toNat ≤ m.size.toNat := covers; omega⟩

theorem wasmCheck_passes {m : WasmMemory} {addr n : U32} (covers : Covers m addr n) :
    wasmCheck m addr n = pure () := by
  unfold wasmCheck
  rw [(CInteger.exceeds_false addr n m.size).mpr covers]
  rfl

theorem wasmCheck_traps {m : WasmMemory} {addr n : U32} (outside : ¬Covers m addr n) :
    TrapsAtOnce (wasmCheck m addr n) .outOfBoundsMemory := by
  unfold wasmCheck
  rw [(CInteger.exceeds_exact addr n m.size).mpr (Nat.not_le.mp outside)]
  exact trap_at_once _

theorem checked_stays {m : WasmMemory} {addr n : U32} {next : Unit → Run α} (covers : Covers m addr n)
    (body : Stays m (next ())) : Stays m (wasmCheck m addr n >>= next) := by
  rw [wasmCheck_passes covers]
  exact stays_bind (stays_pure m ()) fun _ => body

theorem stays_result {m : WasmMemory} {wrap : α → Result} {r : Run α} (body : Stays m r) :
    Stays m (r.result wrap) := stays_bind body fun _ => stays_pure m _

theorem traps_result {wrap : α → Result} {r : Run α} {t : Trap} (body : TrapsAtOnce r t) :
    TrapsAtOnce (r.result wrap) t := traps_bind body _

def LoadAccessor.bytes : LoadAccessor → Nat
  | .i32Load8S | .i64Load8S | .i32Load8U | .i64Load8U => 1
  | .i32Load16S | .i64Load16S | .i32Load16U | .i64Load16U => 2
  | .i32Load | .f32Load | .i64Load32S | .i64Load32U => 4
  | .i64Load | .f64Load => 8

def StoreAccessor.bytes : StoreAccessor → Nat
  | .i32Store8 | .i64Store8 => 1
  | .i32Store16 | .i64Store16 => 2
  | .i32Store | .f32Store | .i64Store32 => 4
  | .i64Store | .f64Store => 8

-- Every accessor is DEFINE_LOAD or DEFINE_STORE at its own width.
theorem LoadAccessor.run_define (accessor : LoadAccessor) :
    ∃ (w : Nat) (conv : BitVec (8 * accessor.bytes) → BitVec w) (wrap : BitVec w → Result),
      ∀ m a, accessor.run m a = (defineLoad accessor.bytes conv m a).result wrap := by
  cases accessor <;> exact ⟨_,_,_,fun _ _ => rfl⟩

theorem StoreAccessor.run_define (accessor : StoreAccessor) :
    ∃ (w : Nat) (narrow : U64 → BitVec w),
      ∀ m a v, accessor.run m a v = defineStore accessor.bytes m a (narrow v) := by
  cases accessor with
  | i64Store | f64Store | i64Store8 | i64Store16 | i64Store32 => exact ⟨64,id,fun _ _ _ => rfl⟩
  | i32Store | f32Store | i32Store8 | i32Store16 => exact ⟨32,BitVec.setWidth 32,fun _ _ _ => rfl⟩

theorem LoadAccessor.bytes_small (accessor : LoadAccessor) :
    (BitVec.ofNat 32 accessor.bytes : U32).toNat = accessor.bytes := by cases accessor <;> rfl

theorem StoreAccessor.bytes_small (accessor : StoreAccessor) :
    (BitVec.ofNat 32 accessor.bytes : U32).toNat = accessor.bytes := by cases accessor <;> rfl

theorem Segment.length_exact (seg : Segment) :
    (BitVec.ofNat 32 seg.bytes.length : U32).toNat = seg.bytes.length := by
  rw [BitVec.toNat_ofNat,Nat.mod_eq_of_lt seg.small]

theorem Segment.len_bound (seg : Segment) : seg.len.toNat ≤ seg.bytes.length := by
  rcases seg.tracked with full | dropped
  · rw [full]; exact Nat.le_of_eq seg.length_exact
  · rw [dropped]; exact Nat.zero_le _

-- The operand ranges an operation needs: the byte range of the memory, and for
-- memory.init the source range of the segment as far as it is not dropped. A
-- refused file descriptor needs nothing.
def Fits (m : WasmMemory) : Operation → Prop
  | .grow _ | .exit _ => True
  | .load accessor a => Covers m a (BitVec.ofNat 32 accessor.bytes)
  | .store accessor a _ => Covers m a (BitVec.ofNat 32 accessor.bytes)
  | .loadData o seg => Covers m o (BitVec.ofNat 32 seg.bytes.length)
  | .copy da sa n => Covers m da n ∧ Covers m sa n
  | .fill da _ n => Covers m da n
  | .init dest seg src n => src.toNat + n.toNat ≤ seg.len.toNat ∧ Covers m dest n
  | .read fd ptr len => fd = 0 → Covers m ptr len
  | .write fd ptr len => fd = 1 ∨ fd = 2 → Covers m ptr len

theorem load_stays {m : WasmMemory} {accessor : LoadAccessor} {a : U32}
    (covers : Covers m a (BitVec.ofNat 32 accessor.bytes)) : Stays m (accessor.run m a) := by
  obtain ⟨w,conv,wrap,define⟩ := accessor.run_define
  rw [define]
  have range := covers.range
  rw [accessor.bytes_small] at range
  exact stays_result (checked_stays covers (stays_bind (memcpyOut_stays range) fun _ => stays_pure m _))

theorem store_stays {m : WasmMemory} {accessor : StoreAccessor} {a : U32} {v : U64}
    (covers : Covers m a (BitVec.ofNat 32 accessor.bytes)) : Stays m (accessor.run m a v) := by
  obtain ⟨w,narrow,define⟩ := accessor.run_define
  rw [define]
  have range := covers.range
  rw [accessor.bytes_small] at range
  exact checked_stays covers (memcpyIn_stays (by rwa [toBytes_length]))

theorem load_traps {m : WasmMemory} {accessor : LoadAccessor} {a : U32}
    (outside : ¬Covers m a (BitVec.ofNat 32 accessor.bytes)) :
    TrapsAtOnce (accessor.run m a) .outOfBoundsMemory := by
  obtain ⟨w,conv,wrap,define⟩ := accessor.run_define
  rw [define]
  exact traps_result (traps_bind (wasmCheck_traps outside) _)

theorem store_traps {m : WasmMemory} {accessor : StoreAccessor} {a : U32} {v : U64}
    (outside : ¬Covers m a (BitVec.ofNat 32 accessor.bytes)) :
    TrapsAtOnce (accessor.run m a v) .outOfBoundsMemory := by
  obtain ⟨w,narrow,define⟩ := accessor.run_define
  rw [define]
  exact traps_bind (wasmCheck_traps outside) _

theorem copy_stays {m : WasmMemory} {da sa n : U32} (dest : Covers m da n) (source : Covers m sa n) :
    Stays m (wasmMemoryCopy m m da sa n) :=
  checked_stays dest (checked_stays source (memmove_stays dest.range source.range))

theorem copy_traps {m : WasmMemory} {da sa n : U32} (outside : ¬(Covers m da n ∧ Covers m sa n)) :
    TrapsAtOnce (wasmMemoryCopy m m da sa n) .outOfBoundsMemory := by
  unfold wasmMemoryCopy
  by_cases dest : Covers m da n
  · rw [wasmCheck_passes dest]
    exact traps_bind (wasmCheck_traps fun source => outside ⟨dest,source⟩) _
  · exact traps_bind (wasmCheck_traps dest) _

theorem init_stays {m : WasmMemory} {dest src n : U32} {seg : Segment}
    (source : src.toNat + n.toNat ≤ seg.len.toNat) (covers : Covers m dest n) :
    Stays m (wasmMemoryInit m dest seg.bytes seg.len src n) := by
  have bound := seg.len_bound
  unfold wasmMemoryInit
  rw [(CInteger.exceeds_false src n seg.len).mpr source]
  exact checked_stays covers (memcpySegment_stays covers.range (by omega))

theorem init_traps {m : WasmMemory} {dest src n : U32} {seg : Segment}
    (outside : ¬(src.toNat + n.toNat ≤ seg.len.toNat ∧ Covers m dest n)) :
    TrapsAtOnce (wasmMemoryInit m dest seg.bytes seg.len src n) .outOfBoundsMemory := by
  unfold wasmMemoryInit
  by_cases source : src.toNat + n.toNat ≤ seg.len.toNat
  · rw [(CInteger.exceeds_false src n seg.len).mpr source]
    exact traps_bind (wasmCheck_traps fun covers => outside ⟨source,covers⟩) _
  · rw [(CInteger.exceeds_exact src n seg.len).mpr (Nat.not_le.mp source)]
    exact trap_at_once _

theorem grow_sized {arena : Arena} {h h' : Host} {delta v : U32} (sized : Sized arena h.wasmMemory0)
    (ran : wasmMemoryGrow delta h = .done v h') : Sized arena h'.wasmMemory0 := by
  obtain ⟨placed,exact_size,grown,clamped,addressable⟩ := sized
  unfold wasmMemoryGrow at ran
  rw [Run.bind_done (Run.get_apply h)] at ran
  split at ran
  · cases ran; exact ⟨placed,exact_size,grown,clamped,addressable⟩
  · rename_i allowed
    cases ran
    have limit : (h.wasmMemory0.pages + delta).toNat ≤ h.wasmMemory0.maxPages.toNat := by
      have bounded := not_or.mp allowed
      exact Nat.not_lt.mp fun above => bounded.2 above
    exact ⟨placed,pages_size (by omega),limit,clamped,addressable⟩

theorem grow_silent (h : Host) (delta : U32) :
    ∃ v h', wasmMemoryGrow delta h = .done v h' ∧ h'.log = h.log ∧ h'.bytes = h.bytes := by
  unfold wasmMemoryGrow
  rw [Run.bind_done (Run.get_apply h)]
  split
  · exact ⟨_,_,rfl,rfl,rfl⟩
  · exact ⟨_,_,rfl,rfl,rfl⟩

theorem clampPages_bound (arena : Arena) (maxPages : U32) :
    (clampPages arena maxPages).toNat ≤ arena.wasmArenaPages.toNat := by
  unfold clampPages
  split
  · exact Nat.le_refl _
  · rename_i below
    exact Nat.not_lt.mp fun above => below above

theorem allocate_sized {arena : Arena} {initialPages maxPages : U32} {shared : Bool} {h h' : Host}
    (ran : wasmMemoryAllocate arena initialPages maxPages shared h = .done () h') : Sized arena h'.wasmMemory0 := by
  unfold wasmMemoryAllocate at ran
  rw [Run.bind_done (Run.get_apply h)] at ran
  split at ran
  · cases ran
  · rename_i accepted
    cases ran
    simp only [not_or] at accepted
    obtain ⟨_,_,small,room⟩ := accepted
    have addressable : arena.wasmArenaPages.toNat < 65536 := Nat.not_le.mp fun large => small large
    have clamped := clampPages_bound arena maxPages
    have grown : initialPages.toNat ≤ (clampPages arena maxPages).toNat := Nat.not_lt.mp fun above => room above
    exact ⟨rfl,pages_size (by omega),grown,clamped,addressable⟩

theorem envRead_inside (k : Kernel) {h : Host} {fd ptr len : U32}
    (covers : fd = 0 → Covers h.wasmMemory0 ptr len) :
    ∃ v h', envRead k fd ptr len h = .done v h' ∧ Touches h.wasmMemory0 h h' := by
  unfold envRead
  rw [Run.bind_done (Run.get_apply h)]
  split
  · exact ⟨_,h,rfl,Touches.refl _ h⟩
  · rename_i stdin
    have covered := covers (not_not.mp stdin)
    rw [wasmCheck_passes covered]
    refine ⟨_,_,rfl,?_⟩
    have inside : (Event.syscall sysRead 0 (.host (h.wasmMemory0.data + ptr.toNat)) len.toNat).Contained
        h.wasmMemory0 := ⟨.inl ⟨rfl,rfl⟩,covered.range⟩
    refine (touches_event inside h).trans (touches_silent ?_ rfl rfl)
    intro addr outside
    dsimp only
    split
    · -- the kernel delivers at most `len` bytes, all of them in the checked range
      rename_i above
      have short := k.fits h.log len.toNat
      have fits : ptr.toNat + len.toNat ≤ h.wasmMemory0.size.toNat := covered
      have beyond : ¬addr < h.wasmMemory0.data + h.wasmMemory0.size.toNat :=
        fun below => outside ⟨by omega,below⟩
      rw [List.getD_eq_getElem?_getD,List.getElem?_eq_none (by omega),Option.getD_none]
    · rfl

theorem envWrite_inside (k : Kernel) {h : Host} {fd ptr len : U32}
    (covers : fd = 1 ∨ fd = 2 → Covers h.wasmMemory0 ptr len) :
    ∃ v h', envWrite k fd ptr len h = .done v h' ∧ Touches h.wasmMemory0 h h' := by
  unfold envWrite
  rw [Run.bind_done (Run.get_apply h)]
  split
  · exact ⟨_,h,rfl,Touches.refl _ h⟩
  · rename_i other
    have std : fd = 1 ∨ fd = 2 := by
      by_cases one : fd = 1
      · exact .inl one
      · exact .inr (not_not.mp fun two => other ⟨one,two⟩)
    have covered := covers std
    rw [wasmCheck_passes covered]
    refine ⟨_,_,rfl,touches_event ?_ h⟩
    have number : (fd.toNat : Int) = 1 ∨ (fd.toNat : Int) = 2 := by
      rcases std with rfl | rfl
      · exact .inl rfl
      · exact .inr rfl
    exact ⟨.inr (.inl ⟨rfl,number⟩),covered.range⟩

theorem envRead_traps (k : Kernel) {h : Host} {fd ptr len : U32}
    (outside : ¬(fd = 0 → Covers h.wasmMemory0 ptr len)) :
    envRead k fd ptr len h = .stopped (.trap .outOfBoundsMemory)
      {h with log := trapEvents .outOfBoundsMemory ++ h.log} := by
  obtain ⟨stdin,uncovered⟩ := Classical.not_imp.mp outside
  unfold envRead
  rw [Run.bind_done (Run.get_apply h)]
  rw [if_neg (not_not.mpr stdin)]
  exact traps_bind (wasmCheck_traps uncovered) _ h

theorem envWrite_traps (k : Kernel) {h : Host} {fd ptr len : U32}
    (outside : ¬(fd = 1 ∨ fd = 2 → Covers h.wasmMemory0 ptr len)) :
    envWrite k fd ptr len h = .stopped (.trap .outOfBoundsMemory)
      {h with log := trapEvents .outOfBoundsMemory ++ h.log} := by
  obtain ⟨std,uncovered⟩ := Classical.not_imp.mp outside
  have accepted : ¬(fd ≠ 1 ∧ fd ≠ 2) := fun refused => by
    rcases std with one | two
    · exact refused.1 one
    · exact refused.2 two
  unfold envWrite
  rw [Run.bind_done (Run.get_apply h)]
  rw [if_neg accepted]
  exact traps_bind (wasmCheck_traps uncovered) _ h

-- How one operation can go: within its ranges it touches nothing outside, and
-- ends or exits; otherwise the trap is its first and only action.
structure Confined (op : Operation) (before : Host) (outcome : Outcome Stop Host Result) : Prop where
  fits : Fits before.wasmMemory0 op → ∃ after, Inside before.wasmMemory0 before after ∧
    ((∃ v, outcome = .done v after) ∨ ∃ code, outcome = .stopped (.exit code) after)
  traps : ¬Fits before.wasmMemory0 op → outcome = .stopped (.trap .outOfBoundsMemory)
    {before with log := trapEvents .outOfBoundsMemory ++ before.log}
  frame : ∀ v after, outcome = .done v after → (∀ delta, op ≠ .grow delta) →
    after.wasmMemory0 = before.wasmMemory0

theorem confined_of {op : Operation} {before : Host} {r : Run Result}
    (fits : Fits before.wasmMemory0 op → ∃ v after, r before = .done v after ∧
      Touches before.wasmMemory0 before after)
    (traps : ¬Fits before.wasmMemory0 op → r before = .stopped (.trap .outOfBoundsMemory)
      {before with log := trapEvents .outOfBoundsMemory ++ before.log}) :
    Confined op before (r before) := by
  refine ⟨fun fit => ?_,traps,fun v after finished _ => ?_⟩
  · obtain ⟨v,after,ran,touched⟩ := fits fit
    exact ⟨after,touched.toInside,.inl ⟨v,ran⟩⟩
  · by_cases fit : Fits before.wasmMemory0 op
    · obtain ⟨v',after',ran,touched⟩ := fits fit
      rw [ran] at finished
      cases finished
      exact touched.frame
    · rw [traps fit] at finished
      cases finished

theorem result_done {wrap : α → Result} {r : Run α} {m : WasmMemory} {before : Host}
    (body : ∃ v after, r before = .done v after ∧ Touches m before after) :
    ∃ v after, r.result wrap before = .done v after ∧ Touches m before after := by
  obtain ⟨v,after,ran,touched⟩ := body
  exact ⟨wrap v,after,Run.bind_done ran,touched⟩

theorem perform_confined (k : Kernel) (op : Operation) (h : Host) : Confined op h (perform k op h) := by
  unfold perform
  rw [Run.bind_done (Run.get_apply h)]
  cases op with
  | grow delta =>
    obtain ⟨v,after,ran,events,bytes⟩ := grow_silent h delta
    refine ⟨fun _ => ⟨after,⟨fun addr _ => by rw [bytes],[],events,by simp⟩,.inl ⟨.u32 v,?_⟩⟩,fun out => ?_,
      fun _ _ _ other => absurd rfl (other delta)⟩
    · exact Run.bind_done ran
    · exact absurd trivial out
  | load accessor a => exact confined_of (fun fit => load_stays fit h) (fun out => load_traps out h)
  | store accessor a v =>
    exact confined_of (fun fit => stays_result (store_stays fit) h) (fun out => traps_result (store_traps out) h)
  | loadData o seg =>
    refine confined_of (fun fit => stays_result ?_ h) (fun out => traps_result (traps_bind (wasmCheck_traps out) _) h)
    exact checked_stays fit (memcpySegment_stays (Covers.range fit) (by rw [seg.length_exact]; omega))
  | copy da sa n =>
    exact confined_of (fun fit => stays_result (copy_stays fit.1 fit.2) h) (fun out => traps_result (copy_traps out) h)
  | fill da v n =>
    exact confined_of (fun fit => stays_result (checked_stays fit (memset_stays _ (Covers.range fit))) h)
      (fun out => traps_result (traps_bind (wasmCheck_traps out) _) h)
  | init dest seg src n =>
    exact confined_of (fun fit => stays_result (init_stays fit.1 fit.2) h) (fun out => traps_result (init_traps out) h)
  | read fd ptr len =>
    exact confined_of (fun fit => result_done (envRead_inside k fit)) (fun out => Run.bind_stopped (envRead_traps k out))
  | write fd ptr len =>
    exact confined_of (fun fit => result_done (envWrite_inside k fit)) (fun out => Run.bind_stopped (envWrite_traps k out))
  | exit code =>
    have inside : (Event.syscall sysExit code.toInt .none 0).Contained h.wasmMemory0 := ⟨.inr (.inr rfl),trivial⟩
    exact ⟨fun _ => ⟨_,(touches_event inside h).toInside,.inr ⟨_,rfl⟩⟩,fun out => absurd trivial out,
      fun v after finished => by cases finished⟩

theorem perform_sized {arena : Arena} {k : Kernel} {op : Operation} {h h' : Host} {v : Result}
    (sized : Sized arena h.wasmMemory0) (ran : perform k op h = .done v h') : Sized arena h'.wasmMemory0 := by
  by_cases growing : ∃ delta, op = .grow delta
  · obtain ⟨delta,rfl⟩ := growing
    obtain ⟨old,after,grown,_⟩ := grow_silent h delta
    have whole : perform k (.grow delta) h = .done (.u32 old) after := by
      unfold perform
      rw [Run.bind_done (Run.get_apply h)]
      exact Run.bind_done grown
    rw [whole] at ran
    cases ran
    exact grow_sized sized grown
  · have same := (perform_confined k op h).frame v h' ran fun delta is => growing ⟨delta,is⟩
    rwa [same]

-- The memory record of a fresh instance: static storage, all zero.
def Allocated (arena : Arena) (h : Host) : Prop :=
  ∃ before initialPages maxPages shared, before.wasmMemory0 = ⟨0,0,0,0⟩ ∧
    wasmMemoryAllocate arena initialPages maxPages shared before = .done () h

theorem reached_sized {arena : Arena} {k : Kernel} {h : Host} (path : Reached (Allocated arena) (perform k) h) :
    Sized arena h.wasmMemory0 := by
  refine path.invariant ?_ (fun s op value s' sized ran => perform_sized sized ran)
  rintro s ⟨before,initialPages,maxPages,shared,_,ran⟩
  exact allocate_sized ran

-- Every system call of one operation, a trap's own report included.
theorem trap_permitted (t : Trap) : ∀ e ∈ trapEvents t, ∀ n a b c, e = .syscall n a b c → Permitted n a := by
  intro e present n a b c call
  simp only [trapEvents,List.mem_cons,List.not_mem_nil,or_false] at present
  rcases present with rfl | rfl
  · cases call; exact .inr (.inr rfl)
  · cases call; exact .inr (.inl ⟨rfl,.inr rfl⟩)

theorem perform_permitted (k : Kernel) (op : Operation) (h : Host) :
    ∃ new, (perform k op h).state.log = new ++ h.log ∧
      ∀ e ∈ new, ∀ n a b c, e = .syscall n a b c → Permitted n a := by
  have confined := perform_confined k op h
  by_cases fit : Fits h.wasmMemory0 op
  · obtain ⟨after,⟨_,new,events,inside⟩,ends⟩ := confined.fits fit
    refine ⟨new,?_,fun e present n a b c call => by have := inside e present; rw [call] at this; exact this.1⟩
    rcases ends with ⟨v,ran⟩ | ⟨code,ran⟩
    · rw [ran]; exact events
    · rw [ran]; exact events
  · rw [confined.traps fit]
    exact ⟨_,rfl,trap_permitted _⟩

theorem memory_containment (arena : Arena) (k : Kernel) (h : Host)
    (path : Reached (Allocated arena) (perform k) h) (op : Operation) :
    Sized arena h.wasmMemory0 ∧ Confined op h (perform k op h) ∧
      ∃ new, (perform k op h).state.log = new ++ h.log ∧
        ∀ e ∈ new, ∀ n a b c, e = .syscall n a b c → Permitted n a :=
  ⟨reached_sized path,perform_confined k op h,perform_permitted k op h⟩

namespace Controls
def arena : Arena := ⟨65536,4,by decide⟩
def kernel : Kernel := ⟨fun _ _ => (0,[]),fun _ len => len,fun _ _ => Nat.zero_le _⟩
def fresh : Host := ⟨fun _ => 0,⟨0,0,0,0⟩,[]⟩
def onePage : Host := {fresh with wasmMemory0 := ⟨65536,65536,1,4⟩}

theorem onePage_allocated : Allocated arena onePage := ⟨fresh,1,8,false,rfl,rfl⟩
end Controls

-- guest/evil.c: the load from 0xFFFFFFF0 is the trap and nothing else.
theorem memory_containment_evil :
    Sized Controls.arena Controls.onePage.wasmMemory0 ∧
      Confined (.load .i32Load 0xFFFFFFF0) Controls.onePage
        (perform Controls.kernel (.load .i32Load 0xFFFFFFF0) Controls.onePage) ∧
      ∃ new, (perform Controls.kernel (.load .i32Load 0xFFFFFFF0) Controls.onePage).state.log =
        new ++ Controls.onePage.log ∧ ∀ e ∈ new, ∀ n a b c, e = .syscall n a b c → Permitted n a :=
  memory_containment Controls.arena Controls.kernel Controls.onePage (.initial Controls.onePage_allocated)
    (.load .i32Load 0xFFFFFFF0)

end SandboxStack.Runtime
