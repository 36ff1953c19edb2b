import SandboxStack.Allocator

namespace SandboxStack.Libc
open LinearMemory LittleEndian

theorem mask_bits : ∀ i : Fin 32, (15#32).getLsbD i = decide (i.val < 4) := by decide

theorem mask_low (n : U32) : n &&& ~~~15#32 = n >>> 4 <<< 4 := by
  apply BitVec.eq_of_getLsbD_eq
  intro i small
  have bit := mask_bits ⟨i,small⟩
  simp only [BitVec.getLsbD_and,BitVec.getLsbD_not,BitVec.getLsbD_shiftLeft,BitVec.getLsbD_ushiftRight] at bit ⊢
  by_cases low : i < 4
  · simp_all
  · rw [show 4 + (i - 4) = i by omega]
    simp_all

-- The rounding is exact unless it wraps, and then it gives zero.
theorem roundUp_exact {n : U32} (fits : n.toNat ≤ 0xFFFFFFF0) : (roundUp n).toNat = (n.toNat + 15) / 16 * 16 := by
  have sum : (n + 15).toNat = n.toNat + 15 := CInteger.add_exact (by simp; omega)
  rw [roundUp,mask_low,BitVec.toNat_shiftLeft,BitVec.toNat_ushiftRight,sum]
  simp only [Nat.shiftRight_eq_div_pow,Nat.shiftLeft_eq]
  omega

theorem stored_read {n a : Nat} {m : Memory} {v : BitVec (8 * n)} : (m.write a (toBytes v)).read a n = toBytes v := by
  have back : (m.write a (toBytes v)).read a (toBytes v).length = toBytes v := read_write
  rw [toBytes_length] at back
  exact back

theorem size_addressable (m : Memory) : m.size ≤ 2 ^ 32 := by
  have one := m.grown
  have two := m.addressable
  simp only [Memory.size]
  omega

theorem toBytes_byte (b : U8) : toBytes (n := 1) b = [b] := by
  simp [toBytes,leBytes]

theorem load_byte {m : Memory} {a : Nat} (inside : a + 1 ≤ m.size) : m.load 1 a = some (m.bytes a) := by
  have whole : ofBytes 1 (toBytes (n := 1) (m.bytes a)) = m.bytes a := ofBytes_toBytes (n := 1) (m.bytes a)
  rw [toBytes_byte] at whole
  rw [load_inside inside,Memory.read,Memory.read,whole]

theorem store_byte {m : Memory} {a : Nat} {b : U8} (inside : a + 1 ≤ m.size) : m.store 1 a b = some (m.write a [b]) := by
  rw [store_inside inside,toBytes_byte]

theorem memsetLoop_inside {d : U32} {c : U8} {n : Nat} {m : Memory} (inside : d.toNat + n ≤ m.size) :
    memsetLoop d c n m = some (m.write d.toNat (List.replicate n c)) := by
  induction n generalizing d m with
  | zero => rfl
  | succ n ih =>
    rw [memsetLoop,store_byte (by omega),List.replicate_succ,write_cons,Option.bind_eq_bind,Option.bind_some]
    cases n with
    | zero => rfl
    | succ n =>
      have room := size_addressable m
      have next : (d + 1).toNat = d.toNat + 1 := CInteger.add_exact (by simp; omega)
      have rest := ih (d := d + 1) (m := m.write d.toNat [c]) (by rw [write_size,next]; omega)
      rw [next] at rest
      exact rest

-- A copy between two ranges that do not overlap.
theorem memcpyLoop_apart {d s : U32} {n : Nat} {m : Memory} (inside : d.toNat + n ≤ m.size) (within : s.toNat + n ≤ m.size)
    (apart : s.toNat + n ≤ d.toNat ∨ d.toNat + n ≤ s.toNat) :
    memcpyLoop d s n m = some (m.write d.toNat (m.read s.toNat n)) := by
  induction n generalizing d s m with
  | zero => rfl
  | succ n ih =>
    rw [memcpyLoop,load_byte (by omega),Memory.read,write_cons,Option.bind_eq_bind,Option.bind_some]
    rw [store_byte (by omega),Option.bind_eq_bind,Option.bind_some]
    cases n with
    | zero => rfl
    | succ n =>
      have room := size_addressable m
      have next : (d + 1).toNat = d.toNat + 1 := CInteger.add_exact (by simp; omega)
      have after : (s + 1).toNat = s.toNat + 1 := CInteger.add_exact (by simp; omega)
      have rest := ih (d := d + 1) (s := s + 1) (m := m.write d.toNat [m.bytes s.toNat])
        (by rw [write_size,next]; omega) (by rw [write_size,after]; omega) (by omega)
      rw [after,next,read_outside (by simp; omega)] at rest
      exact rest

section
variable {heapBase n : U32} {s : Instance}

@[simp] theorem initialised_memory : (initialised heapBase s).memory = s.memory := by
  unfold initialised
  split <;> rfl

theorem initialised_idem (raised : (initialised heapBase s).heapTop ≠ 0) :
    initialised heapBase (initialised heapBase s) = initialised heapBase s := by
  rw [initialised,if_neg raised]

theorem page_shift (m : Memory) (below : m.pages < 65536) :
    (builtinMemorySize m <<< 16).toNat = m.size := by
  rw [builtinMemorySize,BitVec.toNat_shiftLeft,BitVec.toNat_ofNat,Nat.shiftLeft_eq,Memory.size]
  omega

theorem need_pages {top last : U32} (above : last.toNat < top.toNat) (paged : 65536 ≤ last.toNat) :
    (((top - last + 65535) >>> 16)).toNat = (top.toNat - last.toNat + 65535) / 65536 := by
  have small := top.isLt
  have difference : (top - last).toNat = top.toNat - last.toNat := BitVec.toNat_sub_of_le (Nat.le_of_lt above)
  have sum : (top - last + 65535).toNat = top.toNat - last.toNat + 65535 := by
    rw [CInteger.add_exact (by simp; omega),difference]; rfl
  rw [BitVec.toNat_ushiftRight,sum,Nat.shiftRight_eq_div_pow]

-- A growth that malloc asks for and gets covers `top`.
theorem grown_covers {m m' : Memory} {top : U32} (paged : 0 < m.pages)
    (above : (builtinMemorySize m <<< 16).toNat < top.toNat)
    (grew : m.grow ((top - builtinMemorySize m <<< 16 + 65535) >>> 16).toNat = some m') :
    top.toNat ≤ m'.size ∧ m.pages ≤ m'.pages ∧ m'.bytes = m.bytes := by
  obtain ⟨pages,_,bytes⟩ := grow_parts grew
  refine ⟨?_,by omega,bytes⟩
  have bound := m.grown
  have limit := m.addressable
  rcases Nat.lt_or_ge m.pages 65536 with below | full
  · have size := page_shift m below
    have least : 65536 ≤ (builtinMemorySize m <<< 16).toNat := by rw [size,Memory.size]; omega
    rw [need_pages above least,size] at pages
    rw [size] at above
    simp only [Memory.size] at pages above ⊢
    omega
  · have small := top.isLt
    simp only [Memory.size]
    omega

end

-- What malloc does with a request that neither rounding nor the header wraps:
-- it returns NULL and leaves all but the lazy initialisation, or it takes the
-- storage right above heap_top.
inductive Malloc (heapBase n : U32) (s : Instance) : U32 → Instance → Prop where
  | null : Malloc heapBase n s 0 (initialised heapBase s)
  | carved {p top : U32} {memory : Memory} :
      p.toNat = (initialised heapBase s).heapTop.toNat + 16 →
      top.toNat = p.toNat + (roundUp n).toNat →
      top.toNat ≤ memory.size → s.memory.pages ≤ memory.pages → memory.bytes = s.memory.bytes →
      Malloc heapBase n s p
        ⟨memory.write (initialised heapBase s).heapTop.toNat (toBytes (n := 4) (roundUp n)),top⟩

theorem carve_done {cur top n : U32} {memory : Memory} (inside : cur.toNat + 4 ≤ memory.size) :
    carve cur top n memory = some (cur + 16,⟨memory.write cur.toNat (toBytes (n := 4) n),top⟩) := by
  unfold carve
  rw [store_inside inside]
  rfl

theorem memoryGrow_refused {m : Memory} {pages : U32} (refused : m.grow pages.toNat = none) :
    builtinMemoryGrow m pages = (-1,m) := by
  rw [builtinMemoryGrow,refused]

theorem memoryGrow_accepted {m m' : Memory} {pages : U32} (grew : m.grow pages.toNat = some m') :
    builtinMemoryGrow m pages = (builtinMemorySize m,m') := by
  rw [builtinMemoryGrow,grew]

-- A size in pages is not the answer of a refusal.
theorem memorySize_small (m : Memory) : builtinMemorySize m ≠ -1 := by
  have bound := m.grown
  have limit := m.addressable
  intro equal
  have value := congrArg BitVec.toNat equal
  rw [builtinMemorySize,BitVec.toNat_ofNat] at value
  simp at value
  omega

theorem malloc_parts (heapBase : U32) {n : U32} {s : Instance} (fits : n.toNat ≤ 0xFFFFFFE0) (paged : 0 < s.memory.pages) :
    ∃ p s', malloc heapBase n s = some (p,s') ∧ Malloc heapBase n s p s' := by
  have rounded := roundUp_exact (n := n) (by omega)
  have header : (16 + roundUp n).toNat = 16 + (roundUp n).toNat := CInteger.add_exact (by simp; omega)
  unfold malloc
  dsimp only
  generalize taken : (initialised heapBase s).heapTop = cur
  rw [initialised_memory,BitVec.add_assoc]
  by_cases wraps : cur + (16 + roundUp n) < cur
  · exact ⟨_,_,if_pos wraps,.null⟩
  rw [if_neg wraps]
  rw [CInteger.add_wraps,Nat.not_le,header] at wraps
  have place : (cur + 16).toNat = cur.toNat + 16 := CInteger.add_exact (by simp; omega)
  have sum : (cur + (16 + roundUp n)).toNat = (cur + 16).toNat + (roundUp n).toNat := by
    rw [CInteger.add_exact (by omega),header,place]; omega
  generalize cur + (16 + roundUp n) = top at sum ⊢
  -- both ways to the end carve the same storage out of a memory that covers it
  have finish : ∀ memory : Memory, top.toNat ≤ memory.size →
      s.memory.pages ≤ memory.pages → memory.bytes = s.memory.bytes →
      ∃ p s', carve cur top (roundUp n) memory = some (p,s') ∧ Malloc heapBase n s p s' := by
    intro memory covered pages bytes
    refine ⟨_,_,carve_done (by omega),?_⟩
    rw [← taken]
    exact .carved (by rw [taken,place]) (by rw [taken,sum]) covered pages bytes
  by_cases above : top > builtinMemorySize s.memory <<< 16
  · rw [if_pos above]
    cases grew : s.memory.grow ((top - builtinMemorySize s.memory <<< 16 + 65535) >>> 16).toNat with
    | none => exact ⟨_,_,if_pos (by rw [memoryGrow_refused grew]),.null⟩
    | some memory =>
      have accepted := memoryGrow_accepted grew
      rw [if_neg (by rw [accepted]; exact memorySize_small s.memory),accepted]
      obtain ⟨covered,pages,bytes⟩ := grown_covers paged (BitVec.lt_def.mp above) grew
      exact finish memory covered pages bytes
  · rw [if_neg above]
    refine finish s.memory ?_ (Nat.le_refl _) rfl
    rcases Nat.lt_or_ge s.memory.pages 65536 with below | full
    · rw [← page_shift s.memory below]
      exact Nat.not_lt.mp fun less => above (BitVec.lt_def.mpr less)
    · have small := top.isLt
      simp only [Memory.size]
      omega

-- The history of an instance: every block ever returned, the size last asked
-- for at its address, and whether the guest still holds it.
structure Block where
  address : U32
  requested : Nat
  live : Bool
  deriving DecidableEq, Repr

structure Heap where
  state : Instance
  blocks : List Block

-- `write` is the guest storing a byte inside a block it holds.
inductive Call where
  | malloc (n : U32)
  | calloc (n m : U32)
  | realloc (p n : U32)
  | free (p : U32)
  | write (p : U32) (i : Nat) (b : U8)
  deriving DecidableEq, Repr

def returned (blocks : List Block) (p : U32) (requested : Nat) : List Block :=
  if p = 0 then blocks else blocks ++ [⟨p,requested,true⟩]

def relabel (p : U32) (change : Block → Block) (blocks : List Block) : List Block :=
  blocks.map fun b => if b.address = p then change b else b

def released (p : U32) : List Block → List Block := relabel p fun b => {b with live := false}
def resized (p : U32) (n : Nat) : List Block → List Block := relabel p fun b => {b with requested := n}

def reallocated (blocks : List Block) (old p : U32) (n : Nat) : List Block :=
  if p = 0 then blocks else if p = old then resized p n blocks else returned (released old blocks) p n

def perform (heapBase : U32) (h : Heap) : Call → Option (U32 × Heap)
  | .malloc n => do
    let (p,s) ← malloc heapBase n h.state
    return (p,⟨s,returned h.blocks p n.toNat⟩)
  | .calloc n m => do
    let (p,s) ← calloc heapBase n m h.state
    return (p,⟨s,returned h.blocks p (n.toNat * m.toNat)⟩)
  | .realloc old n => do
    let (p,s) ← realloc heapBase old n h.state
    return (p,⟨s,reallocated h.blocks old p n.toNat⟩)
  | .free p => do
    let s ← free p h.state
    return (0,⟨s,released p h.blocks⟩)
  | .write p i b => do
    let memory ← h.state.memory.store 1 (p.toNat + i) b
    return (0,⟨{h.state with memory},h.blocks⟩)

def Holds (h : Heap) (p : U32) (i : Nat) : Prop := ∃ b ∈ h.blocks, b.address = p ∧ b.live = true ∧ i ≤ b.requested

def Allowed (h : Heap) : Call → Prop
  | .malloc _ | .calloc _ _ => True
  | .realloc p _ | .free p => p = 0 ∨ Holds h p 0
  | .write p i _ => Holds h p (i + 1)

-- No rounding and no header addition wraps. The product of a calloc that
-- refuses it is not rounded.
def Unwrapped : Call → Prop
  | .malloc n | .realloc _ n => n.toNat ≤ 0xFFFFFFE0
  | .calloc n m => n.toNat * m.toNat ≤ 0xFFFFFFE0 ∨ 2 ^ 32 ≤ n.toNat * m.toNat
  | .free _ | .write _ _ _ => True

def header (m : Memory) (b : Block) : Nat := (ofBytes 4 (m.read (b.address.toNat - 16) 4)).toNat

structure Placed (heapBase : U32) (m : Memory) (b : Block) : Prop where
  aligned : 16 ∣ b.address.toNat
  based : heapBase.toNat + 16 ≤ b.address.toNat
  holds : b.requested ≤ header m b
  inside : b.address.toNat + header m b ≤ m.size

-- Two blocks, each with its size header and all the storage the header records.
def Apart (m : Memory) (a b : Block) : Prop :=
  a.address.toNat + header m a ≤ b.address.toNat - 16 ∨ b.address.toNat + header m b ≤ a.address.toNat - 16

structure Sound (heapBase : U32) (h : Heap) : Prop where
  placed : ∀ b ∈ h.blocks, Placed heapBase h.state.memory b
  apart : h.blocks.Pairwise (Apart h.state.memory)

structure Fresh (heapBase : U32) (h : Heap) : Prop where
  empty : h.blocks = []
  untouched : h.state.heapTop = 0
  positive : 0 < heapBase.toNat
  aligned : heapBase.toNat + 15 < 2 ^ 32
  covered : heapBase.toNat ≤ h.state.memory.size

-- heap_top as the next call will read it.
def top (heapBase : U32) (h : Heap) : Nat := (initialised heapBase h.state).heapTop.toNat

structure Invariant (heapBase : U32) (h : Heap) : Prop extends Sound heapBase h where
  raised : 0 < top heapBase h
  topAligned : 16 ∣ top heapBase h
  topBased : heapBase.toNat ≤ top heapBase h
  paged : 0 < h.state.memory.pages
  reserved : ∀ b ∈ h.blocks, b.address.toNat + header h.state.memory b ≤ top heapBase h

section
variable {heapBase : U32} {h : Heap} {s s' : Instance} {blocks : List Block} {m m' : Memory} {b : Block} {p q : U32}

theorem fresh_invariant (fresh : Fresh heapBase h) : Invariant heapBase h := by
  have base : top heapBase h = (heapBase.toNat + 15) / 16 * 16 := by
    unfold top initialised
    rw [if_pos fresh.untouched]
    exact roundUp_exact (by have := fresh.aligned; omega)
  have positive := fresh.positive
  have covered := fresh.covered
  refine ⟨⟨?_,?_⟩,by omega,by omega,by omega,?_,?_⟩
  · simp [fresh.empty]
  · simp [fresh.empty]
  · simp only [Memory.size] at covered
    omega
  · simp [fresh.empty]

theorem header_same (same : ∀ i, b.address.toNat - 16 ≤ i → i < b.address.toNat - 12 → m'.bytes i = m.bytes i)
    (based : 16 ≤ b.address.toNat) : header m' b = header m b := by
  unfold header
  rw [read_same fun i low high => same i low (by omega)]

theorem top_raised (nonzero : s.heapTop ≠ 0) : top heapBase ⟨s,blocks⟩ = s.heapTop.toNat := by
  unfold top initialised
  rw [if_neg nonzero]

theorem top_initialised (raised : 0 < top heapBase ⟨s,blocks⟩) :
    top heapBase ⟨initialised heapBase s,blocks⟩ = top heapBase ⟨s,blocks⟩ := by
  unfold top at raised ⊢
  dsimp only at raised ⊢
  rw [initialised_idem]
  intro zero
  rw [zero] at raised
  exact absurd raised (by decide)

theorem initialised_invariant (valid : Invariant heapBase ⟨s,blocks⟩) :
    Invariant heapBase ⟨initialised heapBase s,blocks⟩ := by
  have same := top_initialised valid.raised
  refine ⟨⟨?_,?_⟩,by rw [same]; exact valid.raised,by rw [same]; exact valid.topAligned,
    by rw [same]; exact valid.topBased,?_,?_⟩
  · simpa using valid.placed
  · simpa using valid.apart
  · simpa using valid.paged
  · rw [same]; simpa using valid.reserved

-- Only addresses and requested sizes count, and a size may change up to the header.
theorem relabel_invariant (valid : Invariant heapBase ⟨s,blocks⟩) {change : Block → Block}
    (kept : ∀ b, (change b).address = b.address)
    (within : ∀ b ∈ blocks, b.address = p → (change b).requested ≤ header s.memory b) :
    Invariant heapBase ⟨s,relabel p change blocks⟩ := by
  have address : ∀ b, (if b.address = p then change b else b).address = b.address := by
    intro b; split
    · exact kept b
    · rfl
  have sized : ∀ b, header s.memory (if b.address = p then change b else b) = header s.memory b := by
    intro b; unfold header; rw [address]
  refine ⟨⟨?_,?_⟩,valid.raised,valid.topAligned,valid.topBased,valid.paged,?_⟩
  · intro c member
    obtain ⟨b,present,rfl⟩ := List.mem_map.mp member
    have old := valid.placed b present
    refine ⟨by rw [address]; exact old.aligned,by rw [address]; exact old.based,?_,by
      rw [address,sized]; exact old.inside⟩
    rw [sized]
    split
    · rename_i equal
      exact within b present equal
    · exact old.holds
  · refine List.pairwise_map.mpr (valid.apart.imp ?_)
    intro a b apart
    simpa only [Apart,address,sized] using apart
  · intro c member
    obtain ⟨b,present,rfl⟩ := List.mem_map.mp member
    rw [address,sized]
    exact valid.reserved b present

-- Storage taken above the top keeps every block and adds one.
theorem carved_invariant (valid : Invariant heapBase ⟨s,blocks⟩) {requested k : Nat}
    (place : p.toNat = top heapBase ⟨s,blocks⟩ + 16) (raised : s'.heapTop.toNat = p.toNat + k)
    (multiple : 16 ∣ k) (room : requested ≤ k) (covered : p.toNat + k ≤ s'.memory.size)
    (pages : s.memory.pages ≤ s'.memory.pages) (recorded : header s'.memory ⟨p,requested,true⟩ = k)
    (kept : ∀ i < top heapBase ⟨s,blocks⟩, s'.memory.bytes i = s.memory.bytes i) :
    Invariant heapBase ⟨s',blocks ++ [⟨p,requested,true⟩]⟩ := by
  have moved : top heapBase ⟨s',blocks ++ [⟨p,requested,true⟩]⟩ = p.toNat + k := by
    rw [top_raised,raised]
    intro zero
    rw [zero] at raised
    have nothing : (0 : U32).toNat = 0 := rfl
    omega
  have larger : s.memory.size ≤ s'.memory.size := by simp only [Memory.size]; omega
  have based := valid.topBased
  have aligned := valid.topAligned
  have same : ∀ b ∈ blocks, header s'.memory b = header s.memory b := by
    intro b present
    have low := (valid.placed b present).based
    have high := valid.reserved b present
    exact header_same (fun i _ above => kept i (by dsimp only at high; omega)) (by omega)
  refine ⟨⟨?_,?_⟩,by omega,by omega,by omega,Nat.lt_of_lt_of_le valid.paged pages,?_⟩
  · intro b member
    rcases List.mem_append.mp member with old | new
    · have before := valid.placed b old
      refine ⟨before.aligned,before.based,?_,?_⟩
      · rw [same b old]; exact before.holds
      · rw [same b old]; exact Nat.le_trans before.inside larger
    · cases List.mem_singleton.mp new
      exact ⟨by dsimp only; omega,by dsimp only; omega,by rw [recorded]; exact room,by rw [recorded]; exact covered⟩
  · refine List.pairwise_append.mpr ⟨?_,List.pairwise_singleton _ _,?_⟩
    · refine List.Pairwise.imp_of_mem ?_ valid.apart
      intro a b left right apart
      simpa only [Apart,same a left,same b right] using apart
    · intro a old b new
      cases List.mem_singleton.mp new
      refine .inl ?_
      have below := valid.reserved a old
      rw [same a old]
      dsimp only at below ⊢
      omega
  · intro b member
    rw [moved]
    rcases List.mem_append.mp member with old | new
    · have below := valid.reserved b old
      rw [same b old]
      dsimp only at below
      omega
    · cases List.mem_singleton.mp new
      exact Nat.le_of_eq (congrArg _ recorded)

-- The header is written first; what a caller then does to the new storage
-- touches nothing below the block.
theorem malloc_invariant (valid : Invariant heapBase ⟨s,blocks⟩) {n : U32} (fits : n.toNat ≤ 0xFFFFFFE0)
    (made : Malloc heapBase n s p s') (nonzero : p ≠ 0) {requested : Nat} (asked : requested ≤ n.toNat)
    (pages : m.pages = s'.memory.pages) (kept : ∀ i < p.toNat, m.bytes i = s'.memory.bytes i) :
    Invariant heapBase ⟨⟨m,s'.heapTop⟩,blocks ++ [⟨p,requested,true⟩]⟩ := by
  have rounded := roundUp_exact (n := n) (by omega)
  cases made with
  | null => exact absurd rfl nonzero
  | carved place sum covered larger bytes =>
    have size : m.size = Memory.size _ := congrArg (· * 65536) pages
    rw [write_size] at size
    refine carved_invariant (k := (roundUp n).toNat) valid place sum (by omega) (by omega) (by show _ ≤ m.size; omega)
      (by rw [pages,write_pages]; exact larger) ?_ ?_
    · have read := read_same (n := 4) (a := p.toNat - 16) fun i low high => kept i (by omega)
      unfold header
      rw [read,show p.toNat - 16 = (initialised heapBase s).heapTop.toNat by omega]
      rw [stored_read,ofBytes_toBytes]
    · intro i below
      have under : i < (initialised heapBase s).heapTop.toNat := below
      rw [kept i (by omega),write_outside (.inl under),bytes]

theorem refused_invariant (valid : Invariant heapBase ⟨s,blocks⟩) {n : U32} (made : Malloc heapBase n s 0 s') :
    s' = initialised heapBase s ∧ Invariant heapBase ⟨s',blocks⟩ := by
  generalize zero : (0 : U32) = p at made
  cases made with
  | null => exact ⟨rfl,initialised_invariant valid⟩
  | carved place sum covered larger bytes =>
    rw [← zero] at place
    exact absurd place (by simp)

end

-- What a NULL leaves as it was. The first call reads a heap_top of 0 as the
-- aligned heap base, and stores it.
structure Refused (heapBase : U32) (h h' : Heap) : Prop where
  blocks : h'.blocks = h.blocks
  memory : h'.state.memory = h.state.memory
  top : top heapBase h' = top heapBase h
  heapTop : h.state.heapTop ≠ 0 → h'.state.heapTop = h.state.heapTop

structure Answered (heapBase : U32) (n : Nat) (p : U32) (h h' : Heap) : Prop where
  null : p = 0 → Refused heapBase h h'
  block : p ≠ 0 → ⟨p,n,true⟩ ∈ h'.blocks

def Answers (heapBase : U32) : Call → U32 → Heap → Heap → Prop
  | .malloc n,p,h,h' => Answered heapBase n.toNat p h h'
  | .calloc n m,p,h,h' => Answered heapBase (n.toNat * m.toNat) p h h' ∧
      (p ≠ 0 → ∀ i < n.toNat * m.toNat, h'.state.memory.bytes (p.toNat + i) = 0)
  | .realloc _ n,p,h,h' => Answered heapBase n.toNat p h h'
  | .free _,_,h,h' => h'.state = h.state
  | .write _ _ _,_,h,h' => h'.state.heapTop = h.state.heapTop ∧ h'.blocks = h.blocks

section
variable {heapBase : U32} {h : Heap}

theorem refused_refl : Refused heapBase h h := ⟨rfl,rfl,rfl,fun _ => rfl⟩

theorem refused_initialised (valid : Invariant heapBase h) :
    Refused heapBase h ⟨initialised heapBase h.state,h.blocks⟩ where
  blocks := rfl
  memory := initialised_memory
  top := top_initialised valid.raised
  heapTop nonzero := by
    unfold initialised
    rw [if_neg nonzero]

theorem malloc_step (valid : Invariant heapBase h) {n : U32} (fits : n.toNat ≤ 0xFFFFFFE0) :
    ∃ p h', perform heapBase h (.malloc n) = some (p,h') ∧ Answers heapBase (.malloc n) p h h' ∧ Invariant heapBase h' := by
  obtain ⟨p,s',ran,made⟩ := malloc_parts heapBase fits valid.paged
  refine ⟨p,⟨s',returned h.blocks p n.toNat⟩,by simp [perform,ran],?_⟩
  by_cases zero : p = 0
  · subst zero
    obtain ⟨rfl,next⟩ := refused_invariant valid made
    exact ⟨⟨fun _ => refused_initialised valid,fun nonzero => absurd rfl nonzero⟩,next⟩
  · simp only [returned,if_neg zero]
    exact ⟨⟨fun null => absurd null zero,fun _ => by simp⟩,
      malloc_invariant valid fits made zero (Nat.le_refl _) rfl fun _ _ => rfl⟩

theorem product_refused {n m : U32} : m ≠ 0 ∧ n > -1 / m ↔ 2 ^ 32 ≤ n.toNat * m.toNat := by
  have quotient : (-1 / m : U32).toNat = (2 ^ 32 - 1) / m.toNat := by
    rw [BitVec.toNat_udiv]; rfl
  rw [GT.gt,BitVec.lt_def,quotient]
  constructor
  · rintro ⟨nonzero,above⟩
    have positive : 0 < m.toNat := Nat.pos_of_ne_zero fun zero => nonzero (BitVec.eq_of_toNat_eq zero)
    have more := (Nat.div_lt_iff_lt_mul positive).mp above
    omega
  · intro large
    have nonzero : m ≠ 0 := by
      rintro rfl
      simp at large
    have positive : 0 < m.toNat := Nat.pos_of_ne_zero fun zero => nonzero (BitVec.eq_of_toNat_eq zero)
    exact ⟨nonzero,(Nat.div_lt_iff_lt_mul positive).mpr (by omega)⟩

-- The storage of a fresh block reaches its rounded size.
theorem malloc_room {s s' : Instance} {n p : U32} (made : Malloc heapBase n s p s') (nonzero : p ≠ 0)
    (fits : n.toNat ≤ 0xFFFFFFE0) : p.toNat + n.toNat ≤ s'.memory.size ∧
      p.toNat = (initialised heapBase s).heapTop.toNat + 16 ∧
      ∀ i < (initialised heapBase s).heapTop.toNat, s'.memory.bytes i = s.memory.bytes i := by
  have rounded := roundUp_exact (n := n) (by omega)
  cases made with
  | null => exact absurd rfl nonzero
  | carved place sum covered larger bytes =>
    refine ⟨?_,place,fun i below => ?_⟩
    · rw [write_size]
      omega
    · rw [write_outside (.inl below),bytes]

theorem calloc_refused {n m : U32} {s : Instance} (large : 2 ^ 32 ≤ n.toNat * m.toNat) :
    calloc heapBase n m s = some (0,s) := if_pos (product_refused.mpr large)

section
variable {n m p : U32} {s s' : Instance} {memory : Memory}

theorem calloc_null (accepted : n.toNat * m.toNat < 2 ^ 32) (ran : malloc heapBase (n * m) s = some (0,s')) :
    calloc heapBase n m s = some (0,s') := by
  unfold calloc
  rw [if_neg fun large => absurd (product_refused.mp large) (by omega),ran]
  rfl

theorem calloc_done (accepted : n.toNat * m.toNat < 2 ^ 32) (ran : malloc heapBase (n * m) s = some (p,s'))
    (nonzero : p ≠ 0) (cleared : memset p 0 (n * m) s'.memory = some memory) :
    calloc heapBase n m s = some (p,⟨memory,s'.heapTop⟩) := by
  unfold calloc
  rw [if_neg fun large => absurd (product_refused.mp large) (by omega),ran]
  show (if p ≠ 0 then _ else _) = _
  rw [if_pos nonzero,cleared]
  rfl

theorem realloc_kept {old n size : U32} (nonzero : old ≠ 0) (load : s.memory.load 4 (old - 16).toNat = some size)
    (enough : n ≤ size) : realloc heapBase old n s = some (old,s) := by
  unfold realloc
  rw [if_neg nonzero,load]
  exact if_pos enough

theorem realloc_null {old n size : U32} (nonzero : old ≠ 0) (load : s.memory.load 4 (old - 16).toNat = some size)
    (short : ¬n ≤ size) (ran : malloc heapBase n s = some (0,s')) : realloc heapBase old n s = some (0,s') := by
  unfold realloc
  rw [if_neg nonzero,load]
  show (if n ≤ size then _ else _) = _
  rw [if_neg short,ran]
  rfl

theorem realloc_moved {old n size : U32} (nonzero : old ≠ 0) (load : s.memory.load 4 (old - 16).toNat = some size)
    (short : ¬n ≤ size) (ran : malloc heapBase n s = some (p,s')) (made : p ≠ 0)
    (copied : memcpy p old size s'.memory = some memory) :
    realloc heapBase old n s = some (p,⟨memory,s'.heapTop⟩) := by
  unfold realloc
  rw [if_neg nonzero,load]
  show (if n ≤ size then _ else _) = _
  rw [if_neg short,ran]
  show (if p ≠ 0 then _ else _) = _
  rw [if_pos made,copied]
  rfl

end

-- A call that ends in malloc's NULL.
theorem null_answer (valid : Invariant heapBase h) (n : Nat) :
    Answered heapBase n 0 h ⟨initialised heapBase h.state,h.blocks⟩ where
  null _ := refused_initialised valid
  block nonzero := absurd rfl nonzero

theorem block_answer {n : Nat} {p : U32} {s : Instance} {blocks : List Block} (nonzero : p ≠ 0) :
    Answered heapBase n p h ⟨s,blocks ++ [⟨p,n,true⟩]⟩ where
  null zero := absurd zero nonzero
  block _ := List.mem_append_right _ (List.mem_singleton_self _)

theorem calloc_step (valid : Invariant heapBase h) {n m : U32} (fits : Unwrapped (.calloc n m)) :
    ∃ p h', perform heapBase h (.calloc n m) = some (p,h') ∧ Answers heapBase (.calloc n m) p h h' ∧
      Invariant heapBase h' := by
  by_cases refused : 2 ^ 32 ≤ n.toNat * m.toNat
  · refine ⟨0,h,?_,⟨⟨fun _ => refused_refl,fun nonzero => absurd rfl nonzero⟩,fun nonzero => absurd rfl nonzero⟩,valid⟩
    rw [perform,calloc_refused refused]
    rfl
  have product : (n * m).toNat = n.toNat * m.toNat := CInteger.mul_exact (by omega)
  have small : (n * m).toNat ≤ 0xFFFFFFE0 := by
    rw [product]
    exact fits.resolve_right refused
  obtain ⟨p,s',ran,made⟩ := malloc_parts heapBase small valid.paged
  by_cases zero : p = 0
  · subst zero
    obtain ⟨rfl,next⟩ := refused_invariant valid made
    refine ⟨0,⟨initialised heapBase h.state,h.blocks⟩,?_,⟨null_answer valid _,fun nonzero => absurd rfl nonzero⟩,next⟩
    rw [perform,calloc_null (by omega) ran]
    rfl
  obtain ⟨room,_,_⟩ := malloc_room made zero small
  have cleared : memset p 0 (n * m) s'.memory =
      some (s'.memory.write p.toNat (List.replicate (n * m).toNat 0)) := memsetLoop_inside room
  refine ⟨p,⟨⟨s'.memory.write p.toNat (List.replicate (n * m).toNat 0),s'.heapTop⟩,
    h.blocks ++ [⟨p,n.toNat * m.toNat,true⟩]⟩,?_,⟨block_answer zero,?_⟩,?_⟩
  · rw [perform,calloc_done (by omega) ran zero cleared]
    show some _ = some _
    rw [returned,if_neg zero]
  · intro _ i inside
    have within : i < (List.replicate (n * m).toNat (0 : U8)).length := by simpa [product] using inside
    have entry := write_inside (m := s'.memory) (a := p.toNat) within
    rw [entry,List.getElem_replicate]
  · exact malloc_invariant valid small made zero (by omega) write_pages fun i below => write_outside (.inl below)

theorem released_invariant (valid : Invariant heapBase h) (p : U32) :
    Invariant heapBase ⟨h.state,released p h.blocks⟩ :=
  relabel_invariant valid (fun _ => rfl) fun b present _ => (valid.placed b present).holds

theorem reallocated_null {blocks : List Block} {old : U32} {n : Nat} : reallocated blocks old 0 n = blocks := if_pos rfl

theorem reallocated_moved {blocks : List Block} {old p : U32} {n : Nat} (nonzero : p ≠ 0) (moved : p ≠ old) :
    reallocated blocks old p n = released old blocks ++ [⟨p,n,true⟩] := by
  rw [reallocated,if_neg nonzero,if_neg moved,returned,if_neg nonzero]

-- What realloc reads in front of a block it is given.
theorem header_load {m : Memory} {b : Block} (placed : Placed heapBase m b) :
    ∃ size : U32, m.load 4 (b.address - 16).toNat = some size ∧ size.toNat = header m b := by
  have low := placed.based
  have inside := placed.inside
  have below : (b.address - 16).toNat = b.address.toNat - 16 :=
    BitVec.toNat_sub_of_le (BitVec.le_def.mpr (by simp; omega))
  refine ⟨ofBytes 4 (m.read (b.address.toNat - 16) 4),?_,rfl⟩
  rw [below]
  exact load_inside (by omega)

theorem realloc_step (valid : Invariant heapBase h) {old n : U32} (allowed : Allowed h (.realloc old n))
    (fits : n.toNat ≤ 0xFFFFFFE0) :
    ∃ p h', perform heapBase h (.realloc old n) = some (p,h') ∧ Answers heapBase (.realloc old n) p h h' ∧
      Invariant heapBase h' := by
  obtain ⟨p,s',ran,made⟩ := malloc_parts heapBase fits valid.paged
  have freed := released_invariant valid old
  by_cases null : old = 0
  · subst null
    have direct : realloc heapBase 0 n h.state = some (p,s') := by rw [realloc,if_pos rfl,ran]
    by_cases zero : p = 0
    · subst zero
      obtain ⟨rfl,next⟩ := refused_invariant valid made
      refine ⟨0,_,by rw [perform,direct]; rfl,?_,?_⟩
      · rw [reallocated_null]; exact null_answer valid _
      · rw [reallocated_null]; exact next
    · refine ⟨p,_,by rw [perform,direct]; rfl,?_,?_⟩
      · rw [reallocated_moved zero zero]; exact block_answer zero
      · rw [reallocated_moved zero zero]
        exact malloc_invariant freed fits made zero (Nat.le_refl _) rfl fun _ _ => rfl
  obtain ⟨b,present,rfl,live,_⟩ := allowed.resolve_left null
  have placed := valid.placed b present
  obtain ⟨size,load,recorded⟩ := header_load placed
  by_cases enough : n ≤ size
  · have capacity : n.toNat ≤ size.toNat := enough
    refine ⟨b.address,⟨h.state,resized b.address n.toNat h.blocks⟩,?_,⟨fun zero => absurd zero null,fun _ => ?_⟩,?_⟩
    · rw [perform,realloc_kept null load enough]
      show some _ = some _
      rw [reallocated,if_neg null,if_pos rfl]
    · refine List.mem_map.mpr ⟨b,present,?_⟩
      rw [if_pos rfl,← live]
    · refine relabel_invariant valid (fun _ => rfl) fun c _ same => ?_
      have equal : header h.state.memory c = header h.state.memory b := by simp only [header,same]
      show n.toNat ≤ _
      omega
  by_cases zero : p = 0
  · subst zero
    obtain ⟨rfl,next⟩ := refused_invariant valid made
    refine ⟨0,_,by rw [perform,realloc_null null load enough ran]; rfl,?_,?_⟩
    · rw [reallocated_null]; exact null_answer valid _
    · rw [reallocated_null]; exact next
  obtain ⟨room,place,_⟩ := malloc_room made zero fits
  have larger : size.toNat < n.toNat := Nat.not_le.mp enough
  have below : b.address.toNat + header h.state.memory b ≤ (initialised heapBase h.state).heapTop.toNat :=
    valid.reserved b present
  have moved : p ≠ b.address := by
    rintro rfl
    omega
  have copied : memcpy p b.address size s'.memory =
      some (s'.memory.write p.toNat (s'.memory.read b.address.toNat size.toNat)) :=
    memcpyLoop_apart (by omega) (by omega) (.inl (by omega))
  refine ⟨p,_,by rw [perform,realloc_moved null load enough ran zero copied]; rfl,?_,?_⟩
  · rw [reallocated_moved zero moved]; exact block_answer zero
  · rw [reallocated_moved zero moved]
    exact malloc_invariant freed fits made zero (Nat.le_refl _) write_pages fun i below => write_outside (.inl below)

theorem free_step (valid : Invariant heapBase h) (p : U32) :
    ∃ r h', perform heapBase h (.free p) = some (r,h') ∧ Answers heapBase (.free p) r h h' ∧ Invariant heapBase h' :=
  ⟨0,⟨h.state,released p h.blocks⟩,rfl,rfl,released_invariant valid p⟩

instance apartSymm {m : Memory} : Std.Symm (Apart m) := ⟨fun _ _ apart => apart.symm⟩

-- A guest store inside a block reaches no header.
theorem write_header (valid : Invariant heapBase h) {a b : Block} {i : Nat} {c : U8} (other : a ∈ h.blocks)
    (present : b ∈ h.blocks) (asked : i < b.requested) :
    header (h.state.memory.write (b.address.toNat + i) [c]) a = header h.state.memory a := by
  have low := (valid.placed a other).based
  have holds := (valid.placed b present).holds
  refine header_same (fun j least most => write_outside ?_) (by omega)
  simp only [List.length_singleton]
  by_cases equal : a = b
  · subst equal
    omega
  · rcases valid.apart.forall other present equal with first | second
    · omega
    · omega

theorem write_step (valid : Invariant heapBase h) {p : U32} {i : Nat} {c : U8} (allowed : Allowed h (.write p i c)) :
    ∃ r h', perform heapBase h (.write p i c) = some (r,h') ∧ Answers heapBase (.write p i c) r h h' ∧
      Invariant heapBase h' := by
  obtain ⟨b,present,rfl,live,asked⟩ := allowed
  have holds := (valid.placed b present).holds
  have inside := (valid.placed b present).inside
  have store : h.state.memory.store 1 (b.address.toNat + i) c =
      some (h.state.memory.write (b.address.toNat + i) [c]) := by
    rw [store_inside (by omega),toBytes_byte]
  have same : ∀ a ∈ h.blocks, header (h.state.memory.write (b.address.toNat + i) [c]) a = header h.state.memory a :=
    fun a member => write_header valid member present asked
  refine ⟨0,⟨⟨h.state.memory.write (b.address.toNat + i) [c],h.state.heapTop⟩,h.blocks⟩,
    by rw [perform,store]; rfl,⟨rfl,rfl⟩,?_⟩
  have kept : top heapBase ⟨⟨h.state.memory.write (b.address.toNat + i) [c],h.state.heapTop⟩,h.blocks⟩ = top heapBase h := by
    unfold top initialised
    split <;> rfl
  refine ⟨⟨fun a member => ?_,?_⟩,by rw [kept]; exact valid.raised,by rw [kept]; exact valid.topAligned,
    by rw [kept]; exact valid.topBased,by rw [write_pages]; exact valid.paged,fun a member => ?_⟩
  · have before := valid.placed a member
    exact ⟨before.aligned,before.based,by rw [same a member]; exact before.holds,by
      rw [same a member,write_size]; exact before.inside⟩
  · refine List.Pairwise.imp_of_mem ?_ valid.apart
    intro a b left right apart
    simpa only [Apart,same a left,same b right] using apart
  · rw [same a member,kept]
    exact valid.reserved a member

theorem perform_step (valid : Invariant heapBase h) {call : Call} (allowed : Allowed h call) (fits : Unwrapped call) :
    ∃ p h', perform heapBase h call = some (p,h') ∧ Answers heapBase call p h h' ∧ Invariant heapBase h' := by
  cases call with
  | malloc n => exact malloc_step valid fits
  | calloc n m => exact calloc_step valid fits
  | realloc p n => exact realloc_step valid allowed fits
  | free p => exact free_step valid p
  | write p i c => exact write_step valid allowed

end

-- One call of a history; `limit` says which calls it may contain.
def Step (heapBase : U32) (limit : Call → Prop) (h h' : Heap) : Prop :=
  ∃ call p, Allowed h call ∧ limit call ∧ perform heapBase h call = some (p,h')

theorem history_invariant {heapBase : U32} {start h : Heap} (fresh : Fresh heapBase start)
    (history : Relation.ReflTransGen (Step heapBase Unwrapped) start h) : Invariant heapBase h := by
  induction history with
  | refl => exact fresh_invariant fresh
  | tail _ step ih =>
    obtain ⟨call,p,allowed,fits,ran⟩ := step
    obtain ⟨p',h',ran',_,next⟩ := perform_step ih allowed fits
    rw [ran] at ran'
    cases ran'
    exact next

theorem allocator_soundness (heapBase : U32) (start h : Heap) (fresh : Fresh heapBase start)
    (history : Relation.ReflTransGen (Step heapBase Unwrapped) start h) :
    Sound heapBase h ∧ ∀ call, Allowed h call → Unwrapped call →
      ∃ p h', perform heapBase h call = some (p,h') ∧ Answers heapBase call p h h' ∧ Sound heapBase h' := by
  have valid := history_invariant fresh history
  refine ⟨valid.toSound,fun call allowed fits => ?_⟩
  obtain ⟨p,h',ran,answers,next⟩ := perform_step valid allowed fits
  exact ⟨p,h',ran,answers,next.toSound⟩

namespace Controls

def onePage : Memory := ⟨fun _ => 0,1,1,onePage_grown,onePage_addressable⟩
def start : Heap := ⟨⟨onePage,0⟩,[]⟩

theorem start_fresh : Fresh 1024 start := ⟨rfl,rfl,by decide,by decide,by decide⟩

-- The heap after one malloc(0xFFFFFFFF): rounded to 0, so only a header.
def undersized : Heap := ⟨⟨onePage.write 1024 [0,0,0,0],1040⟩,[⟨1040,0xFFFFFFFF,true⟩]⟩

theorem undersized_reached : perform 1024 start (.malloc 0xFFFFFFFF) = some (1040,undersized) := rfl

-- The heap after malloc(0xFFFFFFE1): the header addition wraps, heap_top stays.
def overlapping : Heap := ⟨⟨onePage.write 1024 [0xF0,0xFF,0xFF,0xFF],1024⟩,[⟨1040,0xFFFFFFE1,true⟩]⟩

theorem overlapping_reached : perform 1024 start (.malloc 0xFFFFFFE1) = some (1040,overlapping) := rfl

end Controls

theorem allocator_unsound :
    ¬(∀ heapBase start h, Fresh heapBase start →
      Relation.ReflTransGen (Step heapBase fun _ => True) start h → Sound heapBase h) ∧
    ¬Sound 1024 Controls.undersized ∧ ¬Sound 1024 Controls.overlapping := by
  have small : ¬Sound 1024 Controls.undersized := by
    intro sound
    have holds := (sound.placed _ (List.mem_singleton_self _)).holds
    exact absurd holds (by decide)
  have outside : ¬Sound 1024 Controls.overlapping := by
    intro sound
    have inside := (sound.placed _ (List.mem_singleton_self _)).inside
    exact absurd inside (by decide)
  refine ⟨fun claim => ?_,small,outside⟩
  exact small (claim 1024 _ _ Controls.start_fresh
    (.single ⟨.malloc 0xFFFFFFFF,1040,trivial,trivial,Controls.undersized_reached⟩))

theorem allocator_soundness_calloc :
    ∃ p h', perform 1024 Controls.start (.calloc 3 7) = some (p,h') ∧
      Answers 1024 (.calloc 3 7) p Controls.start h' ∧ Sound 1024 h' :=
  (allocator_soundness 1024 Controls.start Controls.start Controls.start_fresh .refl).2 (.calloc 3 7) trivial
    (.inl (by decide))

end SandboxStack.Libc
