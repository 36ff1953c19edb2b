import Mathlib

namespace SandboxStack.OpenAddressing

-- Linear probing: the slots of a table, searched from a start slot that depends on
-- the key. A deleted slot does not end a search.
inductive Slot (K V : Type) where
  | empty
  | deleted
  | full (key : K) (value : V)
  deriving DecidableEq

theorem findSome?_range {R : Type} {visit : Nat → Option R} {n d : Nat} {r : R} (below : d < n)
    (visited : visit d = some r) (before : ∀ i < d, visit i = none) : (List.range n).findSome? visit = some r := by
  obtain ⟨rest,rfl⟩ : ∃ rest, n = d + (rest + 1) := ⟨n - d - 1,by omega⟩
  have nothing : (List.range d).findSome? visit = none := by
    rw [List.findSome?_eq_none_iff]
    intro i member
    exact before i (List.mem_range.mp member)
  rw [List.range_add,List.findSome?_append,nothing,List.range_succ_eq_map]
  simp [visited]

section
variable {K V : Type} (start : K → Nat)

def probe (size : Nat) (k : K) (d : Nat) : Nat := (start k + d) % size

-- No search for k ends in its first d slots because of an empty one.
def Passes (t : List (Slot K V)) (k : K) (d : Nat) : Prop := ∀ i < d, t[probe start t.length k i]? ≠ some Slot.empty

def Reached (t : List (Slot K V)) (j : Nat) (k : K) : Prop :=
  ∃ d < t.length, probe start t.length k d = j ∧ Passes start t k d

def Searchable (t : List (Slot K V)) : Prop := ∀ (j : Nat) (k : K) (v : V), t[j]? = some (Slot.full k v) → Reached start t j k

def Single (t : List (Slot K V)) : Prop := ∀ (i j : Nat) (k : K) (v w : V), t[i]? = some (Slot.full k v) → t[j]? = some (Slot.full k w) → i = j

def Represents (t : List (Slot K V)) (m : K → Option V) : Prop := ∀ k v, m k = some v ↔ ∃ j : Nat, t[j]? = some (Slot.full k v)

variable {start} {t : List (Slot K V)} {m : K → Option V} {j : Nat} {k : K} {v : V}

theorem probe_lt (room : 0 < t.length) (d : Nat) : probe start t.length k d < t.length := Nat.mod_lt _ room

theorem probe_onto (inside : j < t.length) : ∃ d < t.length, probe start t.length k d = j := by
  have positive : 0 < t.length := Nat.zero_lt_of_lt inside
  refine ⟨(j + (t.length - start k % t.length)) % t.length,Nat.mod_lt _ positive,?_⟩
  have small : start k % t.length < t.length := Nat.mod_lt _ positive
  unfold probe
  rw [Nat.add_mod_mod,← Nat.mod_add_mod]
  have around : start k % t.length + (j + (t.length - start k % t.length)) = j + t.length := by omega
  rw [around,Nat.add_mod_right,Nat.mod_eq_of_lt inside]

theorem probe_apart {i d : Nat} (less : i < d) (below : d < t.length) :
    probe start t.length k i ≠ probe start t.length k d := by
  intro same
  have small : i % t.length = d % t.length := Nat.ModEq.add_left_cancel' (start k) same
  rw [Nat.mod_eq_of_lt (less.trans below),Nat.mod_eq_of_lt below] at small
  exact Nat.ne_of_lt less small

theorem search_first (start : K → Nat) (stops : Slot K V → Prop) (empty_stops : stops .empty) (room : Slot.empty ∈ t) (k : K) :
    ∃ d < t.length, (∃ s, t[probe start t.length k d]? = some s ∧ stops s) ∧
      ∀ i < d, ∀ s, t[probe start t.length k i]? = some s → ¬stops s := by
  classical
  obtain ⟨j,inside,empty⟩ := List.mem_iff_getElem.mp room
  obtain ⟨d,below,at_d⟩ := probe_onto (k := k) inside
  have stop : ∃ d, ∃ s, t[probe start t.length k d]? = some s ∧ stops s :=
    ⟨d,.empty,by rw [at_d,List.getElem?_eq_getElem inside,empty],empty_stops⟩
  refine ⟨Nat.find stop,?_,Nat.find_spec stop,?_⟩
  · refine (Nat.find_min' stop ⟨.empty,?_,empty_stops⟩).trans_lt below
    rw [at_d,List.getElem?_eq_getElem inside,empty]
  · intro i less s found stops_s
    exact Nat.find_min stop less ⟨s,found,stops_s⟩

-- A search that stops at the key's own slot, at an empty one and perhaps at a deleted
-- one stops at the slot that the key has, unless a deleted one comes before.
theorem bound_stops {stops : Slot K V → Prop} (own : ∀ v, stops (.full k v))
    (only : ∀ k' v, stops (.full k' v) → k' = k) (searchable : Searchable start t) (single : Single t)
    (bound : t[j]? = some (Slot.full k v)) {d : Nat} {s : Slot K V} (at_d : t[probe start t.length k d]? = some s)
    (stopped : stops s) (first : ∀ i < d, ∀ s, t[probe start t.length k i]? = some s → ¬stops s) :
    probe start t.length k d = j ∨
      s = .deleted ∧ ∃ e < t.length, d < e ∧ t[probe start t.length k e]? = some (Slot.full k v) := by
  obtain ⟨e,inside,at_e,passes⟩ := searchable j k v bound
  have late : d ≤ e := by
    refine Nat.le_of_not_lt fun less => first e less (.full k v) ?_ (own v)
    rw [at_e,bound]
  rcases Nat.eq_or_lt_of_le late with rfl | less
  · exact .inl at_e
  · cases s with
    | empty => exact absurd at_d (passes d less)
    | deleted => exact .inr ⟨rfl,e,inside,less,by rw [at_e,bound]⟩
    | full k' w =>
      rw [only k' w stopped] at at_d
      exact .inl (single _ _ k w v at_d bound)

theorem passes_set {s : Slot K V} (kept : s ≠ .empty) {d : Nat} (passes : Passes start t k d) :
    Passes start (t.set j s) k d := by
  intro i less
  rw [List.length_set,List.getElem?_set]
  split
  · split
    · exact fun same => kept (Option.some.inj same)
    · exact nofun
  · exact passes i less

theorem reached_set {s : Slot K V} (kept : s ≠ .empty) {i : Nat} (reached : Reached start t i k) :
    Reached start (t.set j s) i k := by
  obtain ⟨d,below,at_d,passes⟩ := reached
  refine ⟨d,?_,?_,passes_set kept passes⟩
  · rwa [List.length_set]
  · rwa [List.length_set]

theorem set_full {s : Slot K V} {i : Nat} {k' : K} {v' : V} (inside : j < t.length)
    (full : (t.set j s)[i]? = some (Slot.full k' v')) :
    i = j ∧ s = .full k' v' ∨ i ≠ j ∧ t[i]? = some (Slot.full k' v') := by
  rw [List.getElem?_set] at full
  split at full
  · rename_i same
    exact .inl ⟨same.symm,Option.some.inj full⟩
  · rename_i apart
    exact .inr ⟨fun same => apart same.symm,full⟩

section
variable (inside : j < t.length)
include inside

-- Slot j is where the key is put: it holds no other key, and the key is nowhere else.
theorem put_searchable (searchable : Searchable start t) (reached : Reached start t j k) :
    Searchable start (t.set j (.full k v)) := by
  have kept : Slot.full k v ≠ .empty := nofun
  intro i k' v' full
  rcases set_full inside full with ⟨rfl,same⟩ | ⟨_,other⟩
  · cases same
    exact reached_set kept reached
  · exact reached_set kept (searchable i k' v' other)

theorem put_single (single : Single t) (only : ∀ i w, t[i]? = some (Slot.full k w) → i = j) :
    Single (t.set j (.full k v)) := by
  intro i i' k' v' w' left right
  rcases set_full inside left with ⟨rfl,same⟩ | ⟨apart,other⟩
  · cases same
    rcases set_full inside right with ⟨rfl,_⟩ | ⟨apart',other'⟩
    · rfl
    · exact absurd (only i' w' other') apart'
  · rcases set_full inside right with ⟨rfl,same⟩ | ⟨apart',other'⟩
    · cases same
      exact absurd (only i v' other) apart
    · exact single i i' k' v' w' other other'

theorem put_represents [DecidableEq K] (represents : Represents t m) (owns : ∀ k' w, t[j]? = some (Slot.full k' w) → k' = k)
    (only : ∀ i w, t[i]? = some (Slot.full k w) → i = j) :
    Represents (t.set j (.full k v)) (Function.update m k (some v)) := by
  intro k' v'
  by_cases same : k' = k
  · subst same
    rw [Function.update_self]
    constructor
    · intro equal
      cases equal
      exact ⟨j,by rw [List.getElem?_set_self inside]⟩
    · rintro ⟨i,full⟩
      rcases set_full inside full with ⟨_,same⟩ | ⟨apart,other⟩
      · cases same
        rfl
      · exact absurd (only i v' other) apart
  · rw [Function.update_of_ne same,represents k' v']
    constructor
    · rintro ⟨i,full⟩
      have apart : j ≠ i := by
        rintro rfl
        exact same (owns k' v' full)
      exact ⟨i,by rw [List.getElem?_set_ne apart,full]⟩
    · rintro ⟨i,full⟩
      rcases set_full inside full with ⟨_,other⟩ | ⟨_,other⟩
      · cases other
        exact absurd rfl same
      · exact ⟨i,other⟩

theorem delete_searchable (searchable : Searchable start t) : Searchable start (t.set j .deleted) := by
  have kept : (Slot.deleted : Slot K V) ≠ .empty := nofun
  intro i k' v' full
  rcases set_full inside full with ⟨_,same⟩ | ⟨_,other⟩
  · cases same
  · exact reached_set kept (searchable i k' v' other)

theorem delete_single (single : Single t) : Single (t.set j .deleted) := by
  intro i i' k' v' w' left right
  rcases set_full inside left with ⟨_,same⟩ | ⟨_,other⟩
  · cases same
  · rcases set_full inside right with ⟨_,same⟩ | ⟨_,other'⟩
    · cases same
    · exact single i i' k' v' w' other other'

theorem delete_represents [DecidableEq K] (represents : Represents t m) (single : Single t)
    (bound : t[j]? = some (Slot.full k v)) : Represents (t.set j .deleted) (Function.update m k none) := by
  intro k' v'
  by_cases same : k' = k
  · subst same
    rw [Function.update_self]
    constructor
    · intro equal
      cases equal
    · rintro ⟨i,full⟩
      rcases set_full inside full with ⟨_,same⟩ | ⟨apart,other⟩
      · cases same
      · exact absurd (single i j k' v' v other bound) apart
  · rw [Function.update_of_ne same,represents k' v']
    constructor
    · rintro ⟨i,full⟩
      have apart : j ≠ i := by
        rintro rfl
        rw [bound] at full
        cases full
        exact same rfl
      exact ⟨i,by rw [List.getElem?_set_ne apart,full]⟩
    · rintro ⟨i,full⟩
      rcases set_full inside full with ⟨_,other⟩ | ⟨_,other⟩
      · cases other
      · exact ⟨i,other⟩

end

theorem empty_searchable (n : Nat) : Searchable start (List.replicate n (.empty : Slot K V)) := by
  intro j k v full
  rw [List.getElem?_replicate] at full
  split at full
  · cases full
  · cases full

theorem empty_single (n : Nat) : Single (List.replicate n (.empty : Slot K V)) := by
  intro i j k v w left
  rw [List.getElem?_replicate] at left
  split at left
  · cases left
  · cases left

theorem empty_represents (n : Nat) : Represents (List.replicate n (.empty : Slot K V)) fun _ => none := by
  intro k v
  constructor
  · intro equal
    cases equal
  · rintro ⟨j,full⟩
    rw [List.getElem?_replicate] at full
    split at full
    · cases full
    · cases full

theorem represents_mem : Represents t m ↔ ∀ k v, m k = some v ↔ Slot.full k v ∈ t := by
  simp only [Represents,List.mem_iff_getElem?]

theorem represents_full [DecidableEq K] (represents : Represents t m) (unbound : m k = none) :
    Represents (t ++ [.full k v]) (Function.update m k (some v)) := by
  rw [represents_mem] at represents ⊢
  intro k' v'
  rw [List.mem_append,List.mem_singleton]
  by_cases same : k' = k
  · subst same
    rw [Function.update_self,← represents,unbound]
    simp [eq_comm]
  · rw [Function.update_of_ne same,represents]
    simp [same]

theorem represents_other {s : Slot K V} (represents : Represents t m) (other : ∀ k v, s ≠ .full k v) :
    Represents (t ++ [s]) m := by
  rw [represents_mem] at represents ⊢
  intro k v
  rw [List.mem_append,List.mem_singleton,represents]
  simp [(other k v).symm]

theorem represents_unique {m' : K → Option V} (one : Represents t m) (two : Represents t m') : m = m' := by
  funext k
  apply Option.ext
  intro v
  exact (one k v).trans (two k v).symm

end

end SandboxStack.OpenAddressing
