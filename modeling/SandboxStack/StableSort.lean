import SandboxStack.ThreeWaySort

namespace SandboxStack.ThreeWaySort
variable {α σ : Type}

-- Insertion sort with a comparator that may answer anything: it is told how many
-- elements are before the one it compares, and keeps a state from call to call.
abbrev Comparator (α σ : Type) := Nat → α → α → σ → Int × σ

def insertBy (cmp : Comparator α σ) (x : α) : List α → σ → List α × σ
  | [],s => ([x],s)
  | y :: ys,s =>
    let (c,s) := cmp ys.length y x s
    if 0 < c then
      let (zs,s) := insertBy cmp x ys s
      (y :: zs,s)
    else (x :: y :: ys,s)

def sortBy (cmp : Comparator α σ) : List α → List α → σ → List α × σ
  | sorted,[],s => (sorted,s)
  | sorted,x :: xs,s =>
    let (sorted,s) := insertBy cmp x sorted s
    sortBy cmp sorted xs s

-- A comparator that is a function of the two elements.
def stateless (cmp : α → α → Int) : Comparator α Unit := fun _ a b s => (cmp a b,s)

-- The comparisons of the elements of `on` form a total preorder.
structure TotalPreorder (cmp : α → α → Int) (on : α → Prop) : Prop where
  total : ∀ {a b}, on a → on b → cmp a b ≤ 0 ∨ cmp b a ≤ 0
  chain : ∀ {a b c}, on a → on b → on c → cmp a b ≤ 0 → cmp b c ≤ 0 → cmp a c ≤ 0

def equivalent (cmp : α → α → Int) (a b : α) : Bool := decide (cmp a b ≤ 0) && decide (cmp b a ≤ 0)

theorem insertBy_perm (cmp : Comparator α σ) (x : α) (ys : List α) (s : σ) :
    (insertBy cmp x ys s).1.Perm (x :: ys) := by
  induction ys generalizing s with
  | nil => exact .refl _
  | cons y ys ih =>
    unfold insertBy
    dsimp only
    split
    · exact ((ih _).cons y).trans (List.Perm.swap x y ys)
    · exact .refl _

theorem sortBy_perm (cmp : Comparator α σ) (sorted xs : List α) (s : σ) :
    (sortBy cmp sorted xs s).1.Perm (xs ++ sorted) := by
  induction xs generalizing sorted s with
  | nil => exact .refl _
  | cons x xs ih =>
    refine (ih _ _).trans ?_
    exact ((insertBy_perm cmp x sorted s).append_left xs).trans List.perm_middle

section
variable {cmp : α → α → Int} {on : α → Prop}

theorem insertBy_stateless (x : α) (ys : List α) : insertBy (stateless cmp) x ys () = (insertDown cmp x ys,()) := by
  induction ys with
  | nil => rfl
  | cons y ys ih =>
    unfold insertBy insertDown stateless
    dsimp only
    split
    · exact congrArg (fun r : List α × Unit => (y :: r.1,r.2)) ih
    · rfl

theorem sortBy_stateless (sorted xs : List α) : sortBy (stateless cmp) sorted xs () = (sortDown cmp sorted xs,()) := by
  induction xs generalizing sorted with
  | nil => rfl
  | cons x xs ih =>
    unfold sortBy sortDown
    rw [insertBy_stateless]
    exact ih _

-- Sorting images by a comparator that agrees with the one of the elements.
theorem insertDown_map {β : Type} {cmp' : β → β → Int} {f : α → β} {x : α} {ys : List α}
    (agree : ∀ y ∈ ys, cmp' (f y) (f x) = cmp y x) :
    insertDown cmp' (f x) (ys.map f) = (insertDown cmp x ys).map f := by
  induction ys with
  | nil => rfl
  | cons y ys ih =>
    have rest := ih fun z member => agree z (.tail _ member)
    rw [List.map_cons,insertDown,insertDown,agree y (.head _),rest]
    split <;> rfl

theorem sortDown_map {β : Type} {cmp' : β → β → Int} {f : α → β} {sorted xs : List α}
    (agree : ∀ a ∈ xs ++ sorted, ∀ b ∈ xs ++ sorted, cmp' (f a) (f b) = cmp a b) :
    sortDown cmp' (sorted.map f) (xs.map f) = (sortDown cmp sorted xs).map f := by
  induction xs generalizing sorted with
  | nil => rfl
  | cons x xs ih =>
    have inserted : insertDown cmp' (f x) (sorted.map f) = (insertDown cmp x sorted).map f :=
      insertDown_map fun y member => agree y (List.mem_append_right _ member) x (.head _)
    have members : ∀ a ∈ xs ++ insertDown cmp x sorted, a ∈ (x :: xs) ++ sorted := by
      intro a member
      rcases List.mem_append.mp member with later | done
      · exact .tail _ (List.mem_append_left _ later)
      · rcases List.mem_cons.mp ((insertDown_perm x sorted).mem_iff.mp done) with rfl | old
        · exact .head _
        · exact List.mem_append_right _ old
    rw [List.map_cons,sortDown,sortDown,inserted]
    exact ih fun a one b two => agree a (members a one) b (members b two)

theorem sort_map {β : Type} {cmp' : β → β → Int} {f : α → β} {xs : List α}
    (agree : ∀ a ∈ xs, ∀ b ∈ xs, cmp' (f a) (f b) = cmp a b) : sort cmp' (xs.map f) = (sort cmp xs).map f := by
  have whole : ∀ a ∈ xs ++ [], ∀ b ∈ xs ++ [], cmp' (f a) (f b) = cmp a b := by simpa using agree
  have mapped := sortDown_map whole
  rw [List.map_nil] at mapped
  rw [sort,sort,mapped,List.map_reverse]

-- The last element first, as the sorted part is held.
def Falling (cmp : α → α → Int) (xs : List α) : Prop := xs.Pairwise fun a b => cmp b a ≤ 0

theorem ThreeWay.preorder (order : ThreeWay cmp) (on : α → Prop) : TotalPreorder cmp on where
  total := by
    intro a b _ _
    rcases lt_trichotomy (cmp a b) 0 with less | equal | greater
    · exact .inl (Int.le_of_lt less)
    · exact .inl (Int.le_of_eq equal)
    · exact .inr (Int.le_of_lt (order.turned.mpr greater))
  chain := by
    intro a b c _ _ _ one two
    exact Int.not_lt.mp (order.below_trans (Int.not_lt.mpr one) (Int.not_lt.mpr two))

theorem insertDown_falling (order : TotalPreorder cmp on) {x : α} {ys : List α} (inside : ∀ z ∈ x :: ys, on z)
    (sorted : Falling cmp ys) : Falling cmp (insertDown cmp x ys) := by
  induction ys with
  | nil => exact List.pairwise_singleton _ _
  | cons y ys ih =>
    have first : on x := inside x (.head _)
    have second : on y := inside y (.tail _ (.head _))
    obtain ⟨after,rest⟩ := List.pairwise_cons.mp sorted
    unfold insertDown
    split
    · rename_i greater
      have below : ∀ z ∈ x :: ys, on z := by
        intro z member
        rcases List.mem_cons.mp member with rfl | old
        · exact first
        · exact inside z (.tail _ (.tail _ old))
      refine List.pairwise_cons.mpr ⟨fun z member => ?_,ih below rest⟩
      rcases List.mem_cons.mp ((insertDown_perm x ys).mem_iff.mp member) with rfl | old
      · exact (order.total first second).resolve_right (Int.not_le.mpr greater)
      · exact after z old
    · rename_i within
      have within := Int.not_lt.mp within
      refine List.pairwise_cons.mpr ⟨fun z member => ?_,sorted⟩
      rcases List.mem_cons.mp member with rfl | old
      · exact within
      · exact order.chain (inside z (.tail _ (.tail _ old))) second first (after z old) within

-- An element passes only elements that are not equivalent to it.
theorem insertDown_stable (order : TotalPreorder cmp on) {x z : α} {ys : List α} (inside : ∀ y ∈ x :: ys, on y)
    (given : on z) : (insertDown cmp x ys).filter (equivalent cmp z) = (x :: ys).filter (equivalent cmp z) := by
  induction ys with
  | nil => rfl
  | cons y ys ih =>
    have first : on x := inside x (.head _)
    have second : on y := inside y (.tail _ (.head _))
    unfold insertDown
    split
    · rename_i greater
      have below : ∀ z ∈ x :: ys, on z := by
        intro z member
        rcases List.mem_cons.mp member with rfl | old
        · exact first
        · exact inside z (.tail _ (.tail _ old))
      have one : equivalent cmp z y = true → equivalent cmp z x = false := by
        intro same
        simp only [equivalent,Bool.and_eq_true,decide_eq_true_eq] at same
        have apart : ¬cmp z x ≤ 0 := fun less => Int.not_le.mpr greater (order.chain second given first same.2 less)
        simp [equivalent,apart]
      rw [List.filter_cons,ih below,List.filter_cons,List.filter_cons,List.filter_cons]
      by_cases same : equivalent cmp z y = true
      · simp [same,one same]
      · simp [same]
    · rfl

theorem sortDown_falling (order : TotalPreorder cmp on) {sorted xs : List α} (inside : ∀ z ∈ xs ++ sorted, on z)
    (before : Falling cmp sorted) : Falling cmp (sortDown cmp sorted xs) := by
  induction xs generalizing sorted with
  | nil => exact before
  | cons x xs ih =>
    have here : ∀ z ∈ x :: sorted, on z := by
      intro z member
      rcases List.mem_cons.mp member with rfl | old
      · exact inside z (.head _)
      · exact inside z (List.mem_append_right _ old)
    refine ih (fun z member => ?_) (insertDown_falling order here before)
    rcases List.mem_append.mp member with later | done
    · exact inside z (.tail _ (List.mem_append_left _ later))
    · exact here z ((insertDown_perm x sorted).mem_iff.mp done)

theorem sortDown_stable (order : TotalPreorder cmp on) {sorted xs : List α} {z : α}
    (inside : ∀ y ∈ xs ++ sorted, on y) (given : on z) :
    (sortDown cmp sorted xs).filter (equivalent cmp z) = (xs.reverse ++ sorted).filter (equivalent cmp z) := by
  induction xs generalizing sorted with
  | nil => rfl
  | cons x xs ih =>
    have here : ∀ z ∈ x :: sorted, on z := by
      intro z member
      rcases List.mem_cons.mp member with rfl | old
      · exact inside z (.head _)
      · exact inside z (List.mem_append_right _ old)
    have next : ∀ y ∈ xs ++ insertDown cmp x sorted, on y := by
      intro y member
      rcases List.mem_append.mp member with later | done
      · exact inside y (.tail _ (List.mem_append_left _ later))
      · exact here y ((insertDown_perm x sorted).mem_iff.mp done)
    rw [sortDown,ih next,List.filter_append,insertDown_stable order here given,← List.filter_append]
    simp

-- The stable sorted permutation.
theorem sort_stable (order : TotalPreorder cmp on) {xs : List α} (inside : ∀ x ∈ xs, on x) :
    (sort cmp xs).Pairwise (fun a b => cmp a b ≤ 0) ∧
      ∀ z, on z → (sort cmp xs).filter (equivalent cmp z) = xs.filter (equivalent cmp z) := by
  have whole : ∀ x ∈ xs ++ [], on x := by simpa using inside
  constructor
  · exact List.pairwise_reverse.mpr (sortDown_falling order whole List.Pairwise.nil)
  · intro z given
    rw [sort,List.filter_reverse,sortDown_stable order whole given]
    simp

end

end SandboxStack.ThreeWaySort
