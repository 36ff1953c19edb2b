import SandboxStack.FunctionSplit
import SandboxStack.LittleEndian
import SandboxStack.Qsort

namespace SandboxStack.FunctionSplit
open ThreeWaySort LittleEndian

-- The C library of the host: C fixes the sign of what memcmp returns.
def HostMemcmp (m : List U8 → List U8 → Int) : Prop :=
  ∀ x y, x.length = y.length → (m x y < 0 ↔ memcmp x y < 0) ∧ (m x y = 0 ↔ memcmp x y = 0)

def compareHashesBy (m : List U8 → List U8 → Int) (a b : FunctionID) : Int :=
  let c := m a.hash.bytes b.hash.bytes
  if c ≠ 0 then c
  else if a.functionIndex < b.functionIndex then -1 else if a.functionIndex > b.functionIndex then 1 else 0

-- And its qsort leaves a permutation that ascends in the order it is given.
def Sorts (qsort : (FunctionID → FunctionID → Int) → List FunctionID → List FunctionID) : Prop :=
  ∀ cmp, ThreeWay cmp → ∀ ids, (qsort cmp ids).Perm ids ∧ (qsort cmp ids).Pairwise fun a b => cmp a b ≤ 0

def sortedFunctionIDsBy (m : List U8 → List U8 → Int)
    (qsort : (FunctionID → FunctionID → Int) → List FunctionID → List FunctionID) (functions : List Digest) :
    List FunctionID :=
  let ids := functionIDs 0 functions
  if ids.length > 1 then qsort (compareHashesBy m) ids else ids

-- The guest sorts the bytes of the array: a digest and a 32-bit index each.
def idSize : Nat := digestLength + 4

def encodeID (id : FunctionID) : List U8 := id.hash.bytes ++ leBytes 4 id.functionIndex

def compareEncoded (a b : List U8) : Int :=
  let c := memcmp (a.take digestLength) (b.take digestLength)
  let i := leValue (a.drop digestLength)
  let j := leValue (b.drop digestLength)
  if c ≠ 0 then c else if i < j then -1 else if i > j then 1 else 0

def guestSortedFunctionIDs (before : Vector U8 64) (functions : List Digest) : Except Qsort.Stop (List U8) :=
  let ids := functionIDs 0 functions
  let bytes := (ids.map encodeID).flatten
  if ids.length > 1 then do
    let (o,_) ← Qsort.qsort (stateless compareEncoded) idSize ids.length before bytes ()
    return o.array
  else .ok bytes

theorem compareHashesBy_sign {m : List U8 → List U8 → Int} (host : HostMemcmp m) (a b : FunctionID) :
    (compareHashesBy m a b < 0 ↔ compareHashes a b < 0) ∧ (compareHashesBy m a b = 0 ↔ compareHashes a b = 0) := by
  obtain ⟨less,equal⟩ := host a.hash.bytes b.hash.bytes (a.hash.size.trans b.hash.size.symm)
  unfold compareHashesBy compareHashes
  by_cases same : memcmp a.hash.bytes b.hash.bytes = 0
  · have zero := equal.mpr same
    simp only [zero,same,ne_eq,not_true_eq_false,if_false,and_self]
  · have nonzero := equal.not.mpr same
    simp only [ne_eq,nonzero,same,not_false_eq_true,if_true]
    exact ⟨less,trivial⟩

theorem compareHashesBy_order {m : List U8 → List U8 → Int} (host : HostMemcmp m) : ThreeWay (compareHashesBy m) where
  same := by
    intro a b
    rw [(compareHashesBy_sign host a b).2]
    exact compareHashes_order.same
  turned := by
    intro a b
    have one := compareHashesBy_sign host a b
    have two := compareHashesBy_sign host b a
    have turned := compareHashes_order.turned (a := a) (b := b)
    omega
  chain := by
    intro a b c one two
    rw [(compareHashesBy_sign host _ _).1] at *
    exact compareHashes_order.chain one two

section
variable {functions : List Digest}

theorem functionIDs_different (functions : List Digest) : (functionIDs 0 functions).Nodup :=
  List.Nodup.of_map _ (functionIDs_nodup 0)

-- Two ascending lists of the same ids are the same list.
theorem ascending_unique {xs ys : List FunctionID} (perm : xs.Perm ys)
    (one : xs.Pairwise fun a b => compareHashes a b ≤ 0) (two : ys.Pairwise fun a b => compareHashes a b ≤ 0) :
    xs = ys := by
  refine List.Perm.eq_of_pairwise (fun a b _ _ before after => ?_) one two perm
  have turned := compareHashes_order.turned (a := a) (b := b)
  exact compareHashes_order.same.mp (by omega)

theorem sorted_ascends (functions : List Digest) :
    (sortedFunctionIDs functions).Pairwise fun a b => compareHashes a b ≤ 0 :=
  (sort_increasing compareHashes_order (functionIDs_different functions)).imp fun less => Int.le_of_lt less

theorem sorted_unique {m : List U8 → List U8 → Int}
    {qsort : (FunctionID → FunctionID → Int) → List FunctionID → List FunctionID} (host : HostMemcmp m)
    (correct : Sorts qsort) :
    sortedFunctionIDsBy m qsort functions = sortedFunctionIDs functions := by
  have perm' : (sortedFunctionIDs functions).Perm (functionIDs 0 functions) := sort_perm _
  unfold sortedFunctionIDsBy
  dsimp only
  split
  · obtain ⟨perm,ascends⟩ := correct _ (compareHashesBy_order host) (functionIDs 0 functions)
    refine ascending_unique (perm.trans perm'.symm) (ascends.imp fun {a b} within => ?_) (sorted_ascends functions)
    have sign := compareHashesBy_sign host a b
    omega
  · next few =>
    refine ascending_unique perm'.symm ?_ (sorted_ascends functions)
    cases ids : functionIDs 0 functions with
    | nil => exact List.Pairwise.nil
    | cons x xs =>
      rw [ids] at few
      have single : xs = [] := by
        cases xs with
        | nil => rfl
        | cons y ys => exact absurd (Nat.succ_le_succ (Nat.succ_le_succ (Nat.zero_le ys.length))) few
      rw [single]
      exact List.pairwise_singleton _ _

-- The guest's comparator reads the digest and the index back.
theorem compareEncoded_exact {a b : FunctionID} (one : a.functionIndex < 2 ^ 32) (two : b.functionIndex < 2 ^ 32) :
    compareEncoded (encodeID a) (encodeID b) = compareHashes a b := by
  have digest : ∀ id : FunctionID, (encodeID id).take digestLength = id.hash.bytes := fun id => by
    rw [encodeID,List.take_left' id.hash.size]
  have index : ∀ id : FunctionID, id.functionIndex < 2 ^ 32 →
      leValue ((encodeID id).drop digestLength) = id.functionIndex := fun id small => by
    have width : 256 ^ 4 = 2 ^ 32 := rfl
    rw [encodeID,List.drop_left' id.hash.size,leValue_leBytes,width,Nat.mod_eq_of_lt small]
  unfold compareEncoded compareHashes
  rw [digest,digest,index a one,index b two]

theorem encodeID_sized (id : FunctionID) : Qsort.Sized idSize (encodeID id) := by
  rw [Qsort.Sized,encodeID,List.length_append,id.hash.size,leBytes_length,idSize]

theorem functionIDs_length (start : Nat) : (functionIDs start functions).length = functions.length := by
  induction functions generalizing start with
  | nil => rfl
  | cons f rest ih => rw [functionIDs,List.length_cons,ih,List.length_cons]

theorem index_small (room : functions.length * idSize < 2 ^ 32) {id : FunctionID}
    (member : id ∈ functionIDs 0 functions) : id.functionIndex < 2 ^ 32 := by
  have inside := (List.getElem?_eq_some_iff.mp (functionIDs_mem.mp member).2).1
  have wide : idSize = 24 := rfl
  rw [wide] at room
  omega

theorem guest_sorted (before : Vector U8 64) (room : functions.length * idSize < 2 ^ 32) :
    guestSortedFunctionIDs before functions = .ok ((sortedFunctionIDs functions).map encodeID).flatten := by
  have sized : ∀ x ∈ (functionIDs 0 functions).map encodeID, Qsort.Sized idSize x := by
    intro x member
    obtain ⟨id,_,rfl⟩ := List.mem_map.mp member
    exact encodeID_sized id
  have count : ((functionIDs 0 functions).map encodeID).length = (functionIDs 0 functions).length := List.length_map _
  have length := Qsort.flatten_sized sized
  have elements := Qsort.chunks_flatten sized
  rw [count] at length elements
  have sorted : sort compareEncoded ((functionIDs 0 functions).map encodeID) =
      (sortedFunctionIDs functions).map encodeID :=
    sort_map fun a one b two => compareEncoded_exact (index_small room one) (index_small room two)
  unfold guestSortedFunctionIDs
  dsimp only
  split
  · have fits : (functionIDs 0 functions).length * idSize < 2 ^ 32 := by rwa [functionIDs_length]
    obtain ⟨held,ran⟩ := Qsort.qsort_sortBy (by decide) ⟨_,_,length,fits⟩ before (stateless compareEncoded) ()
    dsimp only at ran
    rw [elements,sortBy_stateless] at ran
    rw [ran,← sorted]
    rfl
  · next few =>
    rw [← sorted]
    cases ids : functionIDs 0 functions with
    | nil => rfl
    | cons x xs =>
      rw [ids] at few
      cases xs with
      | nil => rfl
      | cons y ys => exact absurd (Nat.succ_le_succ (Nat.succ_le_succ (Nat.zero_le ys.length))) few

end

-- The comparator is a strict total order, and so the sorted list is the same for every
-- correct qsort and every memcmp of the host, and for the qsort of the guest.
theorem function_order_unique (functions : List Digest) :
    ThreeWay compareHashes ∧
    (∀ m qsort, HostMemcmp m → Sorts qsort → sortedFunctionIDsBy m qsort functions = sortedFunctionIDs functions) ∧
    (∀ before, functions.length * idSize < 2 ^ 32 →
      guestSortedFunctionIDs before functions = .ok ((sortedFunctionIDs functions).map encodeID).flatten) :=
  ⟨compareHashes_order,fun _ _ host correct => sorted_unique host correct,fun before room => guest_sorted before room⟩

namespace Controls

-- A host whose memcmp returns other numbers, and an insertion sort.
def doubled (x y : List U8) : Int := 2 * memcmp x y

theorem doubled_host : HostMemcmp doubled := by
  intro x y _
  unfold doubled
  omega

theorem sort_sorts : Sorts sort := fun _ order ids =>
  ⟨sort_perm ids,(sort_stable (order.preorder fun _ => True) fun _ _ => trivial).1⟩

end Controls

theorem function_order_unique_twins :
    ThreeWay compareHashes ∧
    sortedFunctionIDsBy Controls.doubled sort [Controls.nop,Controls.empty,Controls.nop] =
      sortedFunctionIDs [Controls.nop,Controls.empty,Controls.nop] ∧
    guestSortedFunctionIDs (Vector.replicate 64 0) [Controls.nop,Controls.empty,Controls.nop] =
      .ok ((sortedFunctionIDs [Controls.nop,Controls.empty,Controls.nop]).map encodeID).flatten :=
  ⟨(function_order_unique [Controls.nop,Controls.empty,Controls.nop]).1,
    (function_order_unique _).2.1 _ _ Controls.doubled_host Controls.sort_sorts,
    (function_order_unique _).2.2 _ (by decide)⟩

end SandboxStack.FunctionSplit
