import Mathlib

namespace SandboxStack.ThreeWaySort
variable {α : Type}

-- A comparison function in the style of C whose sign is a total order.
structure ThreeWay (cmp : α → α → Int) : Prop where
  same : ∀ {a b}, cmp a b = 0 ↔ a = b
  turned : ∀ {a b}, cmp a b < 0 ↔ 0 < cmp b a
  chain : ∀ {a b c}, cmp a b < 0 → cmp b c < 0 → cmp a c < 0

theorem ThreeWay.smaller {cmp : α → α → Int} (order : ThreeWay cmp) {a b : α} (below : ¬0 < cmp a b) :
    a = b ∨ cmp a b < 0 := by
  rcases lt_trichotomy (cmp a b) 0 with less | equal | greater
  · exact .inr less
  · exact .inl (order.same.mp equal)
  · exact absurd greater below

theorem ThreeWay.below_trans {cmp : α → α → Int} (order : ThreeWay cmp) {a b c : α} (one : ¬0 < cmp a b)
    (two : ¬0 < cmp b c) : ¬0 < cmp a c := by
  rcases order.smaller one with rfl | less
  · exact two
  · rcases order.smaller two with rfl | later
    · exact one
    · exact Int.not_lt.mpr (Int.le_of_lt (order.chain less later))

-- Insertion sort. The sorted part is held with its last element first, which
-- is the direction the next element is moved in.
def insertDown (cmp : α → α → Int) (x : α) : List α → List α
  | [] => [x]
  | y :: ys => if 0 < cmp y x then y :: insertDown cmp x ys else x :: y :: ys

def sortDown (cmp : α → α → Int) : List α → List α → List α
  | sorted,[] => sorted
  | sorted,x :: xs => sortDown cmp (insertDown cmp x sorted) xs

def sort (cmp : α → α → Int) (xs : List α) : List α := (sortDown cmp [] xs).reverse

section
variable {cmp : α → α → Int}

theorem insertDown_perm (x : α) (ys : List α) : (insertDown cmp x ys).Perm (x :: ys) := by
  induction ys with
  | nil => exact .refl _
  | cons y ys ih =>
    unfold insertDown
    split
    · exact (ih.cons y).trans (List.Perm.swap x y ys)
    · exact .refl _

theorem sortDown_perm (sorted xs : List α) : (sortDown cmp sorted xs).Perm (xs ++ sorted) := by
  induction xs generalizing sorted with
  | nil => exact .refl _
  | cons x xs ih =>
    refine (ih _).trans ?_
    exact ((insertDown_perm x sorted).append_left xs).trans List.perm_middle

theorem sort_perm (xs : List α) : (sort cmp xs).Perm xs := by
  refine (List.reverse_perm _).trans ?_
  have moved : (sortDown cmp [] xs).Perm (xs ++ []) := sortDown_perm [] xs
  simpa using moved

def Descending (cmp : α → α → Int) (xs : List α) : Prop := xs.Pairwise fun a b => ¬0 < cmp b a

theorem insertDown_descending (order : ThreeWay cmp) (x : α) {ys : List α} (sorted : Descending cmp ys) :
    Descending cmp (insertDown cmp x ys) := by
  induction ys with
  | nil => exact List.pairwise_singleton _ _
  | cons y ys ih =>
    obtain ⟨after,rest⟩ := List.pairwise_cons.mp sorted
    unfold insertDown
    split
    · rename_i greater
      refine List.pairwise_cons.mpr ⟨fun z member => ?_,ih rest⟩
      rcases List.mem_cons.mp ((insertDown_perm x ys).mem_iff.mp member) with rfl | old
      · exact Int.not_lt.mpr (Int.le_of_lt (order.turned.mpr greater))
      · exact after z old
    · rename_i below
      refine List.pairwise_cons.mpr ⟨fun z member => ?_,sorted⟩
      rcases List.mem_cons.mp member with rfl | old
      · exact below
      · exact order.below_trans (after z old) below

theorem sortDown_descending (order : ThreeWay cmp) {sorted : List α} (xs : List α) (before : Descending cmp sorted) :
    Descending cmp (sortDown cmp sorted xs) := by
  induction xs generalizing sorted with
  | nil => exact before
  | cons x xs ih => exact ih (insertDown_descending order x before)

-- Different elements come out strictly increasing.
theorem sort_increasing (order : ThreeWay cmp) {xs : List α} (different : xs.Nodup) :
    (sort cmp xs).Pairwise fun a b => cmp a b < 0 := by
  have kept : (sort cmp xs).Nodup := (sort_perm xs).nodup_iff.mpr different
  have below : (sort cmp xs).Pairwise fun a b => ¬0 < cmp a b :=
    List.pairwise_reverse.mpr (sortDown_descending order xs List.Pairwise.nil)
  refine (below.and kept).imp ?_
  rintro a b ⟨within,unequal⟩
  exact (order.smaller within).resolve_left unequal

end

-- Two pointers through two lists: what both hold, and what only the first one holds.
def split (cmp : α → α → Int) : List α → List α → List α × List α
  | x :: xs,y :: ys =>
    if cmp x y < 0 then
      let (both,only) := split cmp xs (y :: ys)
      (both,x :: only)
    else if cmp x y > 0 then split cmp (x :: xs) ys
    else
      let (both,only) := split cmp xs ys
      (x :: both,only)
  | xs,[] => ([],xs)
  | [],_ => ([],[])
  termination_by xs ys => xs.length + ys.length

section
variable {cmp : α → α → Int}

theorem absent_below (order : ThreeWay cmp) {x y : α} {ys : List α} (sorted : (y :: ys).Pairwise fun a b => cmp a b < 0)
    (less : cmp x y < 0) : x ∉ y :: ys := by
  intro member
  have below : ∀ z, cmp x z < 0 → x ≠ z := fun z low equal => Int.ne_of_lt low (order.same.mpr equal)
  rcases List.mem_cons.mp member with equal | later
  · exact below y less equal
  · exact below x (order.chain less ((List.pairwise_cons.mp sorted).1 x later)) rfl

theorem split_filter [DecidableEq α] (order : ThreeWay cmp) (xs ys : List α) (increasing : xs.Pairwise fun a b => cmp a b < 0)
    (sorted : ys.Pairwise fun a b => cmp a b < 0) :
    split cmp xs ys = (xs.filter fun x => x ∈ ys,xs.filter fun x => x ∉ ys) := by
  fun_induction split cmp xs ys with
  | case1 x xs y ys less both only _ ih =>
    have absent := absent_below order sorted less
    have next := ih (List.pairwise_cons.mp increasing).2 sorted
    simp_all
  | case2 x xs y ys notLess greater ih =>
    have later := ih increasing (List.pairwise_cons.mp sorted).2
    have passed : ∀ z ∈ x :: xs, z ≠ y := by
      intro z member
      have absent := absent_below order increasing (order.turned.mpr greater)
      rintro rfl
      exact absent member
    have same : ∀ z ∈ x :: xs, (z ∈ y :: ys ↔ z ∈ ys) := by
      intro z member
      simp [passed z member]
    rw [later]
    congr 1
    · exact List.filter_congr fun z member => by simp [same z member]
    · exact List.filter_congr fun z member => by simp [same z member]
  | case3 x xs y ys notLess notGreater both only parts ih =>
    have equal : x = y := order.same.mp (le_antisymm (not_lt.mp notGreater) (not_lt.mp notLess))
    subst equal
    obtain ⟨after,rest⟩ := List.pairwise_cons.mp increasing
    have next := ih rest (List.pairwise_cons.mp sorted).2
    have different : ∀ z ∈ xs, z ≠ x := by
      rintro z member rfl
      exact Int.ne_of_lt (after z member) (order.same.mpr rfl)
    have same : ∀ z ∈ xs, (z ∈ x :: ys ↔ z ∈ ys) := by
      intro z member
      simp [different z member]
    obtain ⟨rfl,rfl⟩ := Prod.mk.inj (parts.symm.trans next)
    have kept : (xs.filter fun z => z ∈ x :: ys) = xs.filter fun z => z ∈ ys :=
      List.filter_congr fun z member => by simp [same z member]
    have dropped : (xs.filter fun z => z ∉ x :: ys) = xs.filter fun z => z ∉ ys :=
      List.filter_congr fun z member => by simp [same z member]
    rw [List.filter_cons_of_pos (by simp),List.filter_cons_of_neg (by simp),kept,dropped]
  | case4 xs => simp
  | case5 ys => simp

end

end SandboxStack.ThreeWaySort
