import SandboxStack.ThreeWaySort

namespace SandboxStack.FunctionSplit
open ThreeWaySort

def digestLength : Nat := 20

-- SHA1_DIGEST_LENGTH bytes.
structure Digest where
  bytes : List (BitVec 8)
  size : bytes.length = digestLength
  deriving DecidableEq

structure FunctionID where
  hash : Digest
  functionIndex : Nat
  deriving DecidableEq

def memcmp : List (BitVec 8) → List (BitVec 8) → Int
  | x :: xs,y :: ys => if x ≠ y then (x.toNat : Int) - y.toNat else memcmp xs ys
  | _,_ => 0

def compareHashes (a b : FunctionID) : Int :=
  let c := memcmp a.hash.bytes b.hash.bytes
  if c ≠ 0 then c
  else if a.functionIndex < b.functionIndex then -1 else if a.functionIndex > b.functionIndex then 1 else 0

-- A module is known by the digests of its functions.
def functionIDs (functionIndex : Nat) : List Digest → List FunctionID
  | [] => []
  | hash :: rest => ⟨hash,functionIndex⟩ :: functionIDs (functionIndex + 1) rest

def sortedFunctionIDs (functions : List Digest) : List FunctionID := sort compareHashes (functionIDs 0 functions)

-- The static functions and the dynamic ones.
def splitStaticAndDynamicFunctions (functions reference : List FunctionID) : List FunctionID × List FunctionID :=
  split compareHashes functions reference

theorem memcmp_same {xs ys : List (BitVec 8)} (sizes : xs.length = ys.length) : memcmp xs ys = 0 ↔ xs = ys := by
  induction xs generalizing ys with
  | nil => cases ys with
    | nil => simp [memcmp]
    | cons y ys => simp at sizes
  | cons x xs ih =>
    cases ys with
    | nil => simp at sizes
    | cons y ys =>
      simp only [List.length_cons,Nat.add_right_cancel_iff] at sizes
      by_cases equal : x = y
      · simp [memcmp,equal,ih sizes]
      · have apart : (x.toNat : Int) - y.toNat ≠ 0 := by
          have different : x.toNat ≠ y.toNat := fun same => equal (BitVec.eq_of_toNat_eq same)
          omega
        simp [memcmp,equal,apart]

theorem memcmp_turned (xs ys : List (BitVec 8)) : memcmp ys xs = -memcmp xs ys := by
  induction xs generalizing ys with
  | nil => cases ys <;> simp [memcmp]
  | cons x xs ih =>
    cases ys with
    | nil => simp [memcmp]
    | cons y ys =>
      by_cases equal : x = y
      · simp [memcmp,equal,ih]
      · have back : ¬y = x := fun same => equal same.symm
        rw [memcmp,memcmp,if_pos back,if_pos equal]
        omega

theorem memcmp_chain {xs ys zs : List (BitVec 8)} (one : memcmp xs ys < 0) (two : memcmp ys zs < 0) :
    memcmp xs zs < 0 := by
  induction xs generalizing ys zs with
  | nil => simp [memcmp] at one
  | cons x xs ih =>
    cases ys with
    | nil => simp [memcmp] at one
    | cons y ys =>
      cases zs with
      | nil => simp [memcmp] at two
      | cons z zs =>
        by_cases first : x = y
        · subst first
          by_cases second : x = z
          · subst second
            simp only [memcmp,ne_eq,not_true_eq_false,if_false] at one two ⊢
            exact ih one two
          · simpa [memcmp,second] using two
        · by_cases second : y = z
          · subst second
            simpa [memcmp,first] using one
          · simp only [memcmp,ne_eq,first,second,not_false_eq_true,if_true] at one two
            have apart : x ≠ z := by
              rintro rfl
              omega
            simp only [memcmp,ne_eq,apart,not_false_eq_true,if_true]
            omega

theorem memcmp_hash (a b : Digest) : memcmp a.bytes b.bytes = 0 ↔ a = b := by
  rw [memcmp_same (a.size.trans b.size.symm)]
  exact ⟨fun bytes => by cases a; cases b; simp_all,fun same => by rw [same]⟩

-- Digests first, the indices where they are the same.
theorem compareHashes_sign (a b : FunctionID) :
    (compareHashes a b < 0 ↔ memcmp a.hash.bytes b.hash.bytes < 0 ∨ a.hash = b.hash ∧ a.functionIndex < b.functionIndex) ∧
    (compareHashes a b = 0 ↔ a.hash = b.hash ∧ a.functionIndex = b.functionIndex) := by
  have equal := memcmp_hash a.hash b.hash
  unfold compareHashes
  by_cases hash : a.hash = b.hash
  · have zero := equal.mpr hash
    rw [zero]
    simp only [hash,ne_eq,not_true_eq_false,if_false,true_and]
    split <;> [skip; split] <;> omega
  · have unequal := equal.not.mpr hash
    simp [hash,unequal]

theorem compareHashes_order : ThreeWay compareHashes where
  same := by
    intro a b
    rw [(compareHashes_sign a b).2]
    exact ⟨fun ⟨hash,index⟩ => by cases a; cases b; simp_all,fun equal => by simp [equal]⟩
  turned := by
    intro a b
    have one := compareHashes_sign a b
    have two := compareHashes_sign b a
    have back := memcmp_turned a.hash.bytes b.hash.bytes
    have equal := memcmp_hash a.hash b.hash
    have swapped : b.hash = a.hash ↔ a.hash = b.hash := eq_comm
    rw [swapped] at two
    by_cases hash : a.hash = b.hash
    · have zero := equal.mpr hash
      simp only [eq_true hash,true_and] at one two
      omega
    · have apart := equal.not.mpr hash
      simp only [eq_false hash,false_and,or_false,iff_false] at one two
      omega
  chain := by
    intro a b c one two
    rw [(compareHashes_sign _ _).1] at *
    rcases one with one | ⟨ab,one⟩
    · rcases two with two | ⟨bc,two⟩
      · exact .inl (memcmp_chain one two)
      · exact .inl (bc ▸ one)
    · rcases two with two | ⟨bc,two⟩
      · exact .inl (ab ▸ two)
      · exact .inr ⟨ab.trans bc,Nat.lt_trans one two⟩

section
variable {functions reference : List Digest} {hash : Digest}

theorem functionIDs_mem {start : Nat} {id : FunctionID} :
    id ∈ functionIDs start functions ↔ start ≤ id.functionIndex ∧ functions[id.functionIndex - start]? = some id.hash := by
  induction functions generalizing start with
  | nil => simp [functionIDs]
  | cons f rest ih =>
    rw [functionIDs,List.mem_cons,ih]
    obtain ⟨hash,i⟩ := id
    rcases Nat.lt_trichotomy i start with before | rfl | after
    · simp only [FunctionID.mk.injEq]
      omega
    · simp [eq_comm]
    · obtain ⟨n,rfl⟩ := Nat.exists_eq_add_of_lt after
      have unequal : ¬start + n + 1 = start := by omega
      have place : start + n + 1 - start = n + 1 := by omega
      have later : start + n + 1 - (start + 1) = n := by omega
      simp [unequal,place,later]
      omega

theorem functionIDs_nodup (start : Nat) : ((functionIDs start functions).map (·.functionIndex)).Nodup := by
  induction functions generalizing start with
  | nil => exact List.nodup_nil
  | cons f rest ih =>
    refine List.nodup_cons.mpr ⟨fun again => ?_,ih (start + 1)⟩
    obtain ⟨id,member,same⟩ := List.mem_map.mp again
    have later := (functionIDs_mem.mp member).1
    dsimp only at same
    omega

theorem functionIDs_hashes (start : Nat) : (functionIDs start functions).map (·.hash) = functions := by
  induction functions generalizing start with
  | nil => rfl
  | cons f rest ih => simp [functionIDs,ih]

-- The indices of the functions with a digest.
def indices (functions : List Digest) (hash : Digest) : Finset Nat :=
  (Finset.range functions.length).filter fun i => functions[i]? = some hash

theorem mem_indices {i : Nat} : i ∈ indices functions hash ↔ functions[i]? = some hash := by
  unfold indices
  rw [Finset.mem_filter,Finset.mem_range]
  exact and_iff_right_of_imp fun found => (List.getElem?_eq_some_iff.mp found).1

def withHash (ids : List FunctionID) (hash : Digest) : Nat := ids.countP fun id => id.hash = hash

theorem withHash_card {ids : List FunctionID} (different : (ids.map (·.functionIndex)).Nodup) {s : Finset Nat}
    (exact : ∀ i, i ∈ s ↔ ⟨hash,i⟩ ∈ ids) : withHash ids hash = s.card := by
  have picked : ((ids.filter fun id => id.hash = hash).map (·.functionIndex)).Nodup :=
    different.sublist (List.filter_sublist.map _)
  have same : ((ids.filter fun id => id.hash = hash).map (·.functionIndex)).toFinset = s := by
    ext i
    rw [List.mem_toFinset,List.mem_map,exact]
    constructor
    · rintro ⟨id,member,rfl⟩
      obtain ⟨inside,matching⟩ := List.mem_filter.mp member
      exact (of_decide_eq_true matching) ▸ inside
    · intro inside
      exact ⟨⟨hash,i⟩,List.mem_filter.mpr ⟨inside,decide_eq_true rfl⟩,rfl⟩
  rw [← same,List.toFinset_card_of_nodup picked,List.length_map,withHash,List.countP_eq_length_filter]

theorem count_card : functions.count hash = (indices functions hash).card := by
  have counted : withHash (functionIDs 0 functions) hash = functions.count hash := by
    have same : (functionIDs 0 functions).map (·.hash) = functions := functionIDs_hashes 0
    conv => rhs; rw [← same,List.count,List.countP_map]
    exact List.countP_congr fun id _ => by simp
  rw [← counted]
  exact withHash_card (functionIDs_nodup 0) fun i => by rw [mem_indices,functionIDs_mem]; simp

-- What the merge gives: an id is static when the same digest stands at the same
-- index in both modules.
theorem split_ids : splitStaticAndDynamicFunctions (sortedFunctionIDs functions) (sortedFunctionIDs reference) =
    ((sortedFunctionIDs functions).filter (fun id => id ∈ sortedFunctionIDs reference),
      (sortedFunctionIDs functions).filter fun id => id ∉ sortedFunctionIDs reference) :=
  split_filter compareHashes_order _ _
    (sort_increasing compareHashes_order (List.Nodup.of_map _ (functionIDs_nodup 0)))
    (sort_increasing compareHashes_order (List.Nodup.of_map _ (functionIDs_nodup 0)))

theorem sorted_mem {i : Nat} : (⟨hash,i⟩ : FunctionID) ∈ sortedFunctionIDs functions ↔ i ∈ indices functions hash := by
  rw [sortedFunctionIDs,(sort_perm _).mem_iff,functionIDs_mem,mem_indices]
  simp

theorem static_card : withHash (splitStaticAndDynamicFunctions (sortedFunctionIDs functions) (sortedFunctionIDs reference)).1 hash =
    (indices functions hash ∩ indices reference hash).card := by
  rw [split_ids]
  refine withHash_card ?_ fun i => ?_
  · have whole : ((sortedFunctionIDs functions).map (·.functionIndex)).Nodup :=
      ((sort_perm _).map _).nodup_iff.mpr (functionIDs_nodup 0)
    exact whole.sublist (List.filter_sublist.map _)
  · simp [sorted_mem]

end

-- The static functions of each digest are as many as both modules have, and the
-- dynamic functions are the others.
structure SplitByHash (functions reference : List Digest) (static dynamic : List FunctionID) : Prop where
  partition : (static ++ dynamic).Perm (functionIDs 0 functions)
  matched : ∀ hash, withHash static hash = min (functions.count hash) (reference.count hash)

-- The functions with a digest stand in one of the modules at indices at which
-- they stand in the other, too.
def Aligned (functions reference : List Digest) (hash : Digest) : Prop :=
  (∀ i : Nat, functions[i]? = some hash → reference[i]? = some hash) ∨
  (∀ i : Nat, reference[i]? = some hash → functions[i]? = some hash)

theorem inter_card_min {s t : Finset Nat} : (s ∩ t).card = min s.card t.card ↔ s ⊆ t ∨ t ⊆ s := by
  constructor
  · intro same
    rcases le_total s.card t.card with fewer | more
    · rw [min_eq_left fewer] at same
      exact .inl (Finset.inter_eq_left.mp (Finset.eq_of_subset_of_card_le Finset.inter_subset_left same.ge))
    · rw [min_eq_right more] at same
      exact .inr (Finset.inter_eq_right.mp (Finset.eq_of_subset_of_card_le Finset.inter_subset_right same.ge))
  · rintro (within | within)
    · rw [Finset.inter_eq_left.mpr within,min_eq_left (Finset.card_le_card within)]
    · rw [Finset.inter_eq_right.mpr within,min_eq_right (Finset.card_le_card within)]

theorem split_by_hash_iff_aligned (functions reference : List Digest) :
    SplitByHash functions reference
      (splitStaticAndDynamicFunctions (sortedFunctionIDs functions) (sortedFunctionIDs reference)).1
      (splitStaticAndDynamicFunctions (sortedFunctionIDs functions) (sortedFunctionIDs reference)).2 ↔
    ∀ hash, Aligned functions reference hash := by
  have each : ∀ hash, Aligned functions reference hash ↔
      indices functions hash ⊆ indices reference hash ∨ indices reference hash ⊆ indices functions hash := by
    intro hash
    simp only [Aligned,Finset.subset_iff,mem_indices]
  have matched : ∀ hash, withHash (splitStaticAndDynamicFunctions (sortedFunctionIDs functions)
      (sortedFunctionIDs reference)).1 hash = min (functions.count hash) (reference.count hash) ↔
      Aligned functions reference hash := by
    intro hash
    rw [static_card,count_card,count_card,inter_card_min,each]
  constructor
  · intro split hash
    exact (matched hash).mp (split.matched hash)
  · intro aligned
    refine ⟨?_,fun hash => (matched hash).mpr (aligned hash)⟩
    rw [split_ids]
    have parts := List.filter_append_perm (fun id => decide (id ∈ sortedFunctionIDs reference)) (sortedFunctionIDs functions)
    have sorted : (sortedFunctionIDs functions).Perm (functionIDs 0 functions) := sort_perm _
    simpa using parts.trans sorted

namespace Controls

-- The digests of an empty body and of one with a single nop.
def empty : Digest := ⟨[201,151,67,216,212,139,143,161,237,122,76,175,223,205,139,59,87,159,140,203],rfl⟩
def nop : Digest := ⟨[168,93,101,3,100,157,59,10,20,45,165,71,18,152,43,124,137,1,255,26],rfl⟩

-- The reference module has the module's function after another one; were it
-- before the other one, the function would be static.
theorem shifted_function_is_dynamic :
    (¬SplitByHash [empty] [nop,empty]
      (splitStaticAndDynamicFunctions (sortedFunctionIDs [empty]) (sortedFunctionIDs [nop,empty])).1
      (splitStaticAndDynamicFunctions (sortedFunctionIDs [empty]) (sortedFunctionIDs [nop,empty])).2) ∧
    withHash (splitStaticAndDynamicFunctions (sortedFunctionIDs [empty]) (sortedFunctionIDs [nop,empty])).1 empty = 0 ∧
    withHash (splitStaticAndDynamicFunctions (sortedFunctionIDs [empty]) (sortedFunctionIDs [empty,nop])).1 empty = 1 := by
  have shifted : withHash (splitStaticAndDynamicFunctions (sortedFunctionIDs [empty])
      (sortedFunctionIDs [nop,empty])).1 empty = 0 := by
    rw [static_card]
    decide
  refine ⟨fun split => ?_,shifted,?_⟩
  · have both := split.matched empty
    rw [shifted] at both
    revert both
    decide
  · rw [static_card]
    decide

end Controls

end SandboxStack.FunctionSplit
