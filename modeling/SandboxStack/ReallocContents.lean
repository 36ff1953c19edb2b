import SandboxStack.AllocatorSoundness

namespace SandboxStack.Libc
open LinearMemory LittleEndian

def SameBytes (m m' : Memory) (b : Block) : Prop :=
  ∀ i < b.requested, m'.bytes (b.address.toNat + i) = m.bytes (b.address.toNat + i)

-- What realloc(b, n) leaves when it returns p: of b as many bytes as both sizes
-- have, of every other live block all; after NULL of every live block all.
structure Preserved (h : Heap) (b : Block) (n : Nat) (p : U32) (h' : Heap) : Prop where
  block : p ≠ 0 → ⟨p,n,true⟩ ∈ h'.blocks
  contents : p ≠ 0 → ∀ i < min b.requested n,
    h'.state.memory.bytes (p.toNat + i) = h.state.memory.bytes (b.address.toNat + i)
  others : p ≠ 0 → ∀ c ∈ h.blocks, c.live = true → c ≠ b → c ∈ h'.blocks ∧ SameBytes h.state.memory h'.state.memory c
  failed : p = 0 → h'.blocks = h.blocks ∧ ∀ c ∈ h.blocks, SameBytes h.state.memory h'.state.memory c

section
variable {heapBase : U32} {h : Heap} {b c : Block} {n : U32}

theorem block_nonzero (valid : Invariant heapBase h) (present : b ∈ h.blocks) : b.address ≠ 0 := by
  have based := (valid.placed b present).based
  intro zero
  rw [zero] at based
  simp at based

-- Blocks that are apart have different addresses.
theorem different_address (valid : Invariant heapBase h) (one : b ∈ h.blocks) (two : c ∈ h.blocks) (other : c ≠ b) :
    c.address ≠ b.address := by
  intro same
  have based := (valid.placed b one).based
  have apart := valid.apart.forall two one other
  unfold Apart at apart
  rw [same] at apart
  omega

theorem relabel_other {change : Block → Block} {blocks : List Block} {p : U32} (present : c ∈ blocks)
    (other : c.address ≠ p) : c ∈ relabel p change blocks :=
  List.mem_map.mpr ⟨c,present,if_neg other⟩

theorem realloc_preserves (valid : Invariant heapBase h) (present : b ∈ h.blocks) (live : b.live = true)
    (fits : n.toNat ≤ 0xFFFFFFE0) :
    ∃ p h', perform heapBase h (.realloc b.address n) = some (p,h') ∧ Preserved h b n.toNat p h' := by
  obtain ⟨p,s',ran,made⟩ := malloc_parts heapBase fits valid.paged
  have placed := valid.placed b present
  have nonzero := block_nonzero valid present
  obtain ⟨size,load,recorded⟩ := header_load placed
  by_cases enough : n ≤ size
  -- in place: the memory is as it was
  · refine ⟨b.address,⟨h.state,resized b.address n.toNat h.blocks⟩,?_,⟨fun _ => ?_,fun _ _ _ => rfl,?_,fun zero => ?_⟩⟩
    · rw [perform,realloc_kept nonzero load enough]
      show some _ = some _
      rw [reallocated,if_neg nonzero,if_pos rfl]
    · refine List.mem_map.mpr ⟨b,present,?_⟩
      rw [if_pos rfl,← live]
    · intro _ c member _ other
      exact ⟨relabel_other member (different_address valid present member other),fun _ _ => rfl⟩
    · exact absurd zero nonzero
  by_cases zero : p = 0
  · subst zero
    obtain ⟨rfl,_⟩ := refused_invariant valid made
    have memory : (initialised heapBase h.state).memory = h.state.memory := initialised_memory
    refine ⟨0,_,by rw [perform,realloc_null nonzero load enough ran]; rfl,?_⟩
    rw [reallocated_null]
    refine ⟨fun made => absurd rfl made,fun made => absurd rfl made,fun made => absurd rfl made,fun _ => ⟨rfl,?_⟩⟩
    intro c _ i _
    show (initialised heapBase h.state).memory.bytes _ = _
    rw [memory]
  -- moved above everything that was handed out
  obtain ⟨room,place,kept⟩ := malloc_room made zero fits
  have larger : size.toNat < n.toNat := Nat.not_le.mp enough
  have below : ∀ c ∈ h.blocks,
      c.address.toNat + header h.state.memory c ≤ (initialised heapBase h.state).heapTop.toNat := valid.reserved
  have mine := below b present
  have moved : p ≠ b.address := by
    rintro rfl
    omega
  have copied : memcpy p b.address size s'.memory =
      some (s'.memory.write p.toNat (s'.memory.read b.address.toNat size.toNat)) :=
    memcpyLoop_apart (by omega) (by omega) (.inl (by omega))
  refine ⟨p,_,by rw [perform,realloc_moved nonzero load enough ran zero copied]; rfl,?_⟩
  rw [reallocated_moved zero moved]
  have holds := placed.holds
  refine ⟨fun _ => ?_,fun _ i inside => ?_,?_,fun null => absurd null zero⟩
  · exact List.mem_append_right _ (List.mem_singleton_self _)
  · have within : i < size.toNat := by omega
    have listed : i < (s'.memory.read b.address.toNat size.toNat).length := by
      rw [read_length]
      exact within
    have copy : (s'.memory.read b.address.toNat size.toNat)[i] = s'.memory.bytes (b.address.toNat + i) :=
      (List.getElem_eq_iff listed).mpr (read_entry within)
    show (s'.memory.write p.toNat (s'.memory.read b.address.toNat size.toNat)).bytes (p.toNat + i) = _
    rw [write_inside listed,copy,kept _ (by omega)]
  · intro _ c member _ other
    have asked := (valid.placed c member).holds
    have under := below c member
    refine ⟨List.mem_append_left _ (relabel_other member (different_address valid present member other)),?_⟩
    intro i inside
    show (s'.memory.write p.toNat _).bytes _ = _
    rw [write_outside (.inl (by omega)),kept _ (by omega)]

end

theorem realloc_preserves_contents (heapBase : U32) (start h : Heap) (fresh : Fresh heapBase start)
    (history : Relation.ReflTransGen (Step heapBase Unwrapped) start h) (b : Block) (present : b ∈ h.blocks)
    (live : b.live = true) (n : U32) (fits : Unwrapped (.realloc b.address n)) :
    ∃ p h', perform heapBase h (.realloc b.address n) = some (p,h') ∧ Preserved h b n.toNat p h' :=
  realloc_preserves (history_invariant fresh history) present live fits

-- The roundings do not wrap; the additions of the header may.
def RoundingExact : Call → Prop
  | .malloc n | .realloc _ n => n.toNat ≤ 0xFFFFFFF0
  | .calloc n m => n.toNat * m.toNat ≤ 0xFFFFFFF0 ∨ 2 ^ 32 ≤ n.toNat * m.toNat
  | .free _ | .write _ _ _ => True

namespace Controls

def shared : Heap := ⟨⟨overlapping.state.memory.write 1024 [16,0,0,0],1056⟩,overlapping.blocks ++ [⟨1040,16,true⟩]⟩

def third : Heap := ⟨⟨shared.state.memory.write 1056 [16,0,0,0],1088⟩,shared.blocks ++ [⟨1072,16,true⟩]⟩

theorem shared_reached : perform 1024 overlapping (.malloc 16) = some (1040,shared) := rfl

theorem third_reached : perform 1024 shared (.malloc 16) = some (1072,third) := rfl

def moved : Heap :=
  ⟨⟨(third.state.memory.write 1088 [32,0,0,0]).write 1104 (third.state.memory.read 1072 16),1136⟩,
    released 1072 third.blocks ++ [⟨1104,32,true⟩]⟩

theorem moved_reached : perform 1024 third (.realloc 1072 32) = some (1104,moved) := rfl

end Controls

-- The third block moves over byte 48 of the first, which is live and larger.
theorem realloc_overwrites : ¬(∀ heapBase start h, Fresh heapBase start →
    Relation.ReflTransGen (Step heapBase RoundingExact) start h → ∀ b ∈ h.blocks, b.live = true → ∀ n p h',
      perform heapBase h (.realloc b.address n) = some (p,h') → Preserved h b n.toNat p h') := by
  intro claim
  have history : Relation.ReflTransGen (Step 1024 RoundingExact) Controls.start Controls.third :=
    .tail (.tail (.single ⟨.malloc 0xFFFFFFE1,1040,trivial,by simp [RoundingExact],Controls.overlapping_reached⟩)
      ⟨.malloc 16,1040,trivial,by simp [RoundingExact],Controls.shared_reached⟩)
      ⟨.malloc 16,1072,trivial,by simp [RoundingExact],Controls.third_reached⟩
  have last : (⟨1072,16,true⟩ : Block) ∈ Controls.third.blocks := by decide
  have first : (⟨1040,0xFFFFFFE1,true⟩ : Block) ∈ Controls.third.blocks := by decide
  have preserved := claim 1024 _ _ Controls.start_fresh history _ last rfl 32 1104 _ Controls.moved_reached
  obtain ⟨_,same⟩ := preserved.others (by decide) _ first rfl (by decide)
  have byte := same 48 (by decide)
  exact absurd byte (by decide)

namespace Controls

def shrunk : Heap := ⟨⟨onePage.write 1024 [32,0,0,0],1072⟩,[⟨1040,5,true⟩]⟩

theorem shrunk_reached :
    perform 1024 ⟨⟨onePage.write 1024 [32,0,0,0],1072⟩,[⟨1040,32,true⟩]⟩ (.realloc 1040 5) = some (1040,shrunk) := rfl

end Controls

-- A block shrunk in place from 32 bytes to 5 and then grown to 64.
theorem realloc_preserves_contents_shrunk :
    ∃ p h', perform 1024 Controls.shrunk (.realloc 1040 64) = some (p,h') ∧
      Preserved Controls.shrunk ⟨1040,5,true⟩ 64 p h' :=
  realloc_preserves_contents 1024 Controls.start Controls.shrunk Controls.start_fresh
    (.tail (.single ⟨.malloc 32,1040,trivial,by simp [Unwrapped],rfl⟩)
      ⟨.realloc 1040 5,1040,.inr ⟨_,List.mem_singleton_self _,rfl,rfl,Nat.zero_le _⟩,by simp [Unwrapped],
        Controls.shrunk_reached⟩)
    ⟨1040,5,true⟩ (List.mem_singleton_self _) rfl 64 (by simp [Unwrapped])

end SandboxStack.Libc
