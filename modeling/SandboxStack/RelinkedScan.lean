import Mathlib

-- A singly linked list that is filtered in place: the nodes kept are linked to
-- one another as they are found, and the scan goes on along the old links.
namespace SandboxStack.RelinkedScan

-- The nodes from `start` on, and where the last of them leads.
inductive Leads (next : Nat → Option Nat) : Option Nat → List Nat → Option Nat → Prop
  | done {stop : Option Nat} : Leads next stop [] stop
  | node {i : Nat} {rest : List Nat} {stop : Option Nat} (more : Leads next (next i) rest stop) :
    Leads next (some i) (i :: rest) stop

section
variable {next : Nat → Option Nat} {start stop middle : Option Nat} {xs ys : List Nat} {k : Nat} {v : Option Nat}

theorem leads_append (first : Leads next start xs middle) (second : Leads next middle ys stop) : Leads next start (xs ++ ys) stop := by
  induction first with
  | done => exact second
  | node _ ih => exact .node (ih second)

theorem leads_split (whole : Leads next start (xs ++ ys) stop) : ∃ middle,Leads next start xs middle ∧ Leads next middle ys stop := by
  induction xs generalizing start with
  | nil => exact ⟨start,.done,whole⟩
  | cons i rest ih =>
    cases whole with
    | node more =>
      obtain ⟨middle,first,second⟩ := ih more
      exact ⟨middle,.node first,second⟩

-- A node that is not on the way can be linked elsewhere.
theorem leads_update (absent : k ∉ xs) (whole : Leads next start xs stop) : Leads (Function.update next k v) start xs stop := by
  induction whole with
  | done => exact .done
  | node more ih =>
    rename_i i rest stop
    have other : i ≠ k := fun same => absent (same ▸ List.mem_cons_self ..)
    refine .node ?_
    rw [Function.update_of_ne other]
    exact ih fun later => absent (List.mem_cons_of_mem _ later)

theorem leads_start (whole : Leads next start (k :: xs) stop) : start = some k ∧ Leads next (next k) xs stop := by
  cases whole with
  | node more => exact ⟨rfl,more⟩

end

-- The nodes met on the way from `start`.
def walk (next : Nat → Option Nat) : Nat → Option Nat → List Nat
  | 0,_ | _,none => []
  | fuel+1,some i => i :: walk next fuel (next i)

theorem walk_leads {next : Nat → Option Nat} {start : Option Nat} {xs : List Nat} {fuel : Nat} (whole : Leads next start xs none)
    (enough : xs.length ≤ fuel) : walk next fuel start = xs := by
  induction xs generalizing start fuel with
  | nil =>
    cases whole
    cases fuel <;> rfl
  | cons i rest ih =>
    obtain ⟨rfl,more⟩ := leads_start whole
    cases fuel with
    | zero => cases enough
    | succ fuel =>
      rw [walk,ih more (Nat.le_of_succ_le_succ enough)]

-- ---- the scan ----

-- The links, the first node of the new list and the last one so far.
structure Scan where
  next : Nat → Option Nat
  first : Option Nat
  last : Option Nat

def Scan.keep (s : Scan) (i : Nat) : Scan :=
  match s.last with
  | none => ⟨s.next,some i,some i⟩
  | some k => ⟨Function.update s.next k (some i),s.first,some i⟩

def Scan.close (s : Scan) : Scan :=
  match s.last with
  | none => ⟨s.next,none,none⟩
  | some k => ⟨Function.update s.next k none,s.first,some k⟩

section
variable (optional : Nat → Bool) (twin : Nat → Nat → Bool) (head : Option Nat) (fuel : Nat)

-- An optional node is dropped when a twin of it is met from the old head.
def Scan.step (s : Scan) (i : Nat) : Scan :=
  if optional i && (walk s.next fuel head).any (twin i) then s else s.keep i

def Scan.run : Nat → Option Nat → Scan → Scan
  | 0,_,s | _,none,s => s
  | n+1,some i,s =>
    let s := s.step optional twin head fuel i
    Scan.run n (s.next i) s

end

-- The same on lists: the nodes dropped before the first one kept stay linked
-- to the old head, those dropped since the last one kept stay linked to it.
structure Seen where
  leading : List Nat
  kept : List Nat
  trailing : List Nat

def Seen.all (s : Seen) : List Nat := s.leading ++ s.kept ++ s.trailing

def Seen.keep (s : Seen) (i : Nat) : Seen := ⟨s.leading,s.kept ++ [i],[]⟩

def Seen.drop (s : Seen) (i : Nat) : Seen :=
  if s.kept = [] then ⟨s.leading ++ [i],[],[]⟩ else ⟨s.leading,s.kept,s.trailing ++ [i]⟩

section
variable (optional : Nat → Bool) (twin : Nat → Nat → Bool)

def Seen.step (s : Seen) (i : Nat) (rest : List Nat) : Seen :=
  if optional i && (s.all ++ i :: rest).any (twin i) then s.drop i else s.keep i

def Seen.run : List Nat → Seen → Seen
  | [],s => s
  | i :: rest,s => Seen.run rest (s.step optional twin i rest)

end

-- The links hold what has been seen, and what is pending after it.
structure Agrees (head : Option Nat) (l : Scan) (s : Seen) (pending : List Nat) : Prop where
  whole : ∃ link,Leads l.next head (s.leading ++ s.kept) link ∧ Leads l.next link (s.trailing ++ pending) none ∧
    (s.kept ≠ [] → Leads l.next l.first s.kept link)
  last : l.last = s.kept.getLast?
  empty : s.kept = [] → s.trailing = [] ∧ l.first = none
  distinct : (s.all ++ pending).Nodup

section
variable {optional : Nat → Bool} {twin : Nat → Nat → Bool} {head : Option Nat} {fuel : Nat} {l : Scan} {s : Seen} {i : Nat}
  {rest pending : List Nat}

theorem agrees_walk (agrees : Agrees head l s pending) (enough : (s.all ++ pending).length ≤ fuel) :
    walk l.next fuel head = s.all ++ pending := by
  obtain ⟨link,seen,ahead,_⟩ := agrees.whole
  apply walk_leads _ enough
  rw [Seen.all,List.append_assoc]
  exact leads_append seen ahead

theorem keep_agrees (agrees : Agrees head l s (i :: rest)) : Agrees head (l.keep i) (s.keep i) rest := by
  obtain ⟨link,seen,ahead,fromFirst⟩ := agrees.whole
  have distinct := agrees.distinct
  obtain ⟨middle,skipped,here⟩ := leads_split ahead
  obtain ⟨rfl,beyond⟩ := leads_start here
  rcases List.eq_nil_or_concat s.kept with kept | ⟨init,k,kept⟩
  · obtain ⟨noTrailing,_⟩ := agrees.empty kept
    rw [kept,List.append_nil] at seen
    rw [noTrailing] at skipped
    cases skipped
    have none : l.last = none := by rw [agrees.last,kept]; rfl
    unfold Scan.keep
    rw [none]
    refine ⟨⟨l.next i,?_,beyond,fun _ => ?_⟩,?_,fun impossible => ?_,?_⟩
    · rw [Seen.keep,kept]
      exact leads_append seen (.node .done)
    · rw [Seen.keep,kept]
      exact .node .done
    · simp [Seen.keep,kept]
    · simp [Seen.keep] at impossible
    · simpa [Seen.all,Seen.keep,kept,noTrailing] using distinct
  · rw [List.concat_eq_append] at kept
    have last : l.last = some k := by rw [agrees.last,kept]; simp
    have found := fromFirst (by simp [kept])
    rw [kept] at seen found
    rw [Seen.all,kept] at distinct
    have apart : k ∉ s.leading ++ init ∧ k ∉ rest ∧ i ≠ k := by
      simp only [List.nodup_append,List.mem_append,List.nodup_cons,List.mem_cons] at distinct
      grind
    obtain ⟨notBefore,notAfter,other⟩ := apart
    have notInit : k ∉ init := fun member => notBefore (List.mem_append_right _ member)
    have relinked : ∀ {start : Option Nat} {xs : List Nat} {stop : Option Nat}, k ∉ xs → Leads l.next start (xs ++ [k]) stop →
        Leads (Function.update l.next k (some i)) start (xs ++ [k] ++ [i]) (l.next i) := by
      intro start xs stop absent whole
      obtain ⟨middle,before,at_⟩ := leads_split whole
      obtain ⟨rfl,_⟩ := leads_start at_
      refine leads_append (leads_append (leads_update absent before) (.node .done)) ?_
      rw [Function.update_self]
      refine .node ?_
      rw [Function.update_of_ne other]
      exact .done
    unfold Scan.keep
    rw [last]
    refine ⟨⟨l.next i,?_,leads_update notAfter beyond,fun _ => ?_⟩,?_,fun impossible => ?_,?_⟩
    · rw [Seen.keep,kept]
      rw [← List.append_assoc] at seen
      have whole := relinked notBefore seen
      rwa [List.append_assoc,List.append_assoc,← List.append_assoc init] at whole
    · rw [Seen.keep,kept]
      exact relinked notInit found
    · simp [Seen.keep]
    · simp [Seen.keep] at impossible
    · rw [Seen.all,Seen.keep,kept]
      simp only [List.append_nil,List.append_assoc,List.cons_append,List.nil_append] at distinct ⊢
      refine List.Nodup.sublist ?_ distinct
      apply List.Sublist.append_left
      apply List.Sublist.append_left
      exact .cons_cons _ (List.sublist_append_right ..)

theorem drop_agrees (agrees : Agrees head l s (i :: rest)) : Agrees head l (s.drop i) rest := by
  obtain ⟨link,seen,ahead,fromFirst⟩ := agrees.whole
  have distinct := agrees.distinct
  unfold Seen.drop
  split
  · rename_i kept
    obtain ⟨noTrailing,noFirst⟩ := agrees.empty kept
    rw [kept,List.append_nil] at seen
    rw [noTrailing] at ahead
    obtain ⟨rfl,beyond⟩ := leads_start ahead
    refine ⟨⟨l.next i,?_,beyond,fun impossible => absurd rfl impossible⟩,?_,fun _ => ⟨rfl,noFirst⟩,?_⟩
    · rw [List.append_nil]
      exact leads_append seen (.node .done)
    · rw [agrees.last,kept]
    · simpa [Seen.all,kept,noTrailing] using distinct
  · rename_i kept
    refine ⟨⟨link,seen,?_,fromFirst⟩,agrees.last,fun impossible => absurd impossible kept,?_⟩
    · rw [List.append_assoc]
      exact ahead
    · simpa [Seen.all] using distinct

theorem step_agrees (agrees : Agrees head l s (i :: rest)) (enough : (s.all ++ i :: rest).length ≤ fuel) :
    Agrees head (l.step optional twin head fuel i) (s.step optional twin i rest) rest := by
  unfold Scan.step Seen.step
  rw [agrees_walk agrees enough]
  split
  · exact drop_agrees agrees
  · exact keep_agrees agrees

theorem drop_ends : ∃ ys,(s.drop i).all = ys ++ [i] := by
  unfold Seen.drop
  split
  · exact ⟨s.leading,by simp [Seen.all]⟩
  · exact ⟨s.all,by simp [Seen.all]⟩

theorem keep_ends : ∃ ys,(s.keep i).all = ys ++ [i] := ⟨s.leading ++ s.kept,by simp [Seen.all,Seen.keep]⟩

-- The scan goes on with what was pending.
theorem agrees_next {ys : List Nat} (agrees : Agrees head l s rest) (ends : s.all = ys ++ [i]) : l.next i = rest.head? := by
  obtain ⟨link,seen,ahead,_⟩ := agrees.whole
  have whole : Leads l.next head (s.all ++ rest) none := by
    rw [Seen.all,List.append_assoc]
    exact leads_append seen ahead
  rw [ends,List.append_assoc] at whole
  obtain ⟨_,_,at_⟩ := leads_split whole
  obtain ⟨_,more⟩ := leads_start at_
  cases rest with
  | nil =>
    generalize l.next i = last at more
    cases more
    rfl
  | cons j rest => exact (leads_start more).1

theorem step_next (agrees : Agrees head (l.step optional twin head fuel i) (s.step optional twin i rest) rest) :
    (l.step optional twin head fuel i).next i = rest.head? := by
  have ends : ∃ ys,(s.step optional twin i rest).all = ys ++ [i] := by
    unfold Seen.step
    split
    · exact drop_ends
    · exact keep_ends
  obtain ⟨ys,ends⟩ := ends
  exact agrees_next agrees ends

theorem step_length : ((s.step optional twin i rest).all ++ rest).length ≤ (s.all ++ i :: rest).length := by
  unfold Seen.step
  split
  · unfold Seen.drop
    split <;> simp [Seen.all]
    omega
  · simp [Seen.all,Seen.keep]

theorem run_agrees {n : Nat} (agrees : Agrees head l s pending) (steps : pending.length ≤ n)
    (enough : (s.all ++ pending).length ≤ fuel) :
    Agrees head (Scan.run optional twin head fuel n pending.head? l) (Seen.run optional twin pending s) [] := by
  induction pending generalizing l s n with
  | nil => cases n <;> exact agrees
  | cons i rest ih =>
    cases n with
    | zero => cases steps
    | succ n =>
      have after : Agrees head (l.step optional twin head fuel i) (s.step optional twin i rest) rest := step_agrees agrees enough
      rw [List.head?_cons,Scan.run,step_next after]
      exact ih after (Nat.le_of_succ_le_succ steps) (Nat.le_trans step_length enough)

-- The new list has the nodes kept, in order.
theorem close_walk (agrees : Agrees head l s []) (enough : s.kept.length ≤ fuel) : walk l.close.next fuel l.close.first = s.kept := by
  obtain ⟨link,_,_,fromFirst⟩ := agrees.whole
  unfold Scan.close
  rw [agrees.last]
  rcases List.eq_nil_or_concat s.kept with kept | ⟨init,k,kept⟩
  · rw [kept]
    cases fuel <;> rfl
  · rw [List.concat_eq_append] at kept
    have found := fromFirst (by simp [kept])
    have distinct := agrees.distinct
    rw [kept] at found
    rw [Seen.all,kept,List.append_nil] at distinct
    have absent : k ∉ init := by
      simp only [List.nodup_append,List.mem_append] at distinct
      grind
    obtain ⟨middle,before,at_⟩ := leads_split found
    obtain ⟨rfl,_⟩ := leads_start at_
    rw [kept] at enough ⊢
    rw [List.getLast?_concat]
    dsimp only
    apply walk_leads _ enough
    refine leads_append (leads_update absent before) (.node ?_)
    rw [Function.update_self]
    exact .done

theorem run_length : ((Seen.run optional twin pending s).all).length ≤ (s.all ++ pending).length := by
  induction pending generalizing s with
  | nil => simp [Seen.run]
  | cons i rest ih => exact Nat.le_trans ih step_length

-- A scan over linked nodes leaves the list of those that the scan over lists keeps.
theorem scan_exact {nodes : List Nat} {next : Nat → Option Nat} {n : Nat} (linked : Leads next nodes.head? nodes none)
    (distinct : nodes.Nodup) (steps : nodes.length ≤ n) :
    let scanned := (Scan.run optional twin nodes.head? n n nodes.head? ⟨next,none,none⟩).close
    walk scanned.next n scanned.first = (Seen.run optional twin nodes ⟨[],[],[]⟩).kept := by
  have start : Agrees nodes.head? ⟨next,none,none⟩ ⟨[],[],[]⟩ nodes :=
    ⟨⟨nodes.head?,.done,linked,fun impossible => absurd rfl impossible⟩,rfl,fun _ => ⟨rfl,rfl⟩,distinct⟩
  have ended : Agrees nodes.head? (Scan.run optional twin nodes.head? n n nodes.head? ⟨next,none,none⟩)
      (Seen.run optional twin nodes ⟨[],[],[]⟩) [] := run_agrees start steps steps
  apply close_walk ended
  have all : (Seen.run optional twin nodes ⟨[],[],[]⟩).all.length ≤ ((⟨[],[],[]⟩ : Seen).all ++ nodes).length := run_length
  have part : (Seen.run optional twin nodes ⟨[],[],[]⟩).kept.length ≤ (Seen.run optional twin nodes ⟨[],[],[]⟩).all.length := by
    simp only [Seen.all,List.length_append]
    omega
  exact Nat.le_trans part (Nat.le_trans all steps)

end

-- ---- which nodes are kept ----

-- Nodes are numbered in the order they were linked in, each before the others,
-- so the scan meets the greatest number first. A node stays that has to, or
-- that has no twin, or whose twins are all optional and come, in number,
-- between one that stays and another, the node itself below them all.
inductive Stays (optional : Nat → Bool) (twin : Nat → Nat → Bool) (n : Nat) : Nat → Prop
  | firm {i : Nat} (bound : i < n) (firm : optional i = false) : Stays optional twin n i
  | sole {i : Nat} (bound : i < n) (sole : ∀ j < n, twin i j = false) : Stays optional twin n i
  | first {i a b : Nat} (later : Stays optional twin n a) (next : Stays optional twin n b) (above : i < b)
    (twins : ∀ j < n, twin i j = true → optional j = true ∧ b < j ∧ j < a) : Stays optional twin n i

structure Twins (optional : Nat → Bool) (twin : Nat → Nat → Bool) (n : Nat) : Prop where
  apart : ∀ i, twin i i = false
  back : ∀ i j, i < n → j < n → optional i = true → twin i j = true → twin j i = true

section
variable {optional : Nat → Bool} {twin : Nat → Nat → Bool} {n i m : Nat} {s : Seen}

theorem stays_bound (stays : Stays optional twin n i) : i < n := by
  induction stays with
  | firm bound => exact bound
  | sole bound => exact bound
  | first _ _ above _ _ ih => exact Nat.lt_trans above ih

-- What has been seen when the nodes from `m` on are behind.
structure Behind (optional : Nat → Bool) (twin : Nat → Nat → Bool) (n m : Nat) (s : Seen) : Prop where
  kept : ∀ w, w ∈ s.kept ↔ m ≤ w ∧ Stays optional twin n w
  leading : ∀ w, w ∈ s.leading ↔ m ≤ w ∧ w < n ∧ ∀ a, w ≤ a → ¬Stays optional twin n a
  trailing : ∀ w, w ∈ s.trailing ↔ m ≤ w ∧ w < n ∧ (∃ a, w < a ∧ Stays optional twin n a) ∧
    ∀ b, m ≤ b → b ≤ w → ¬Stays optional twin n b

-- A node that was behind and is not seen any more.
theorem behind_hidden (behind : Behind optional twin n m s) {j : Nat} (low : m ≤ j) (bound : j < n) (hidden : j ∉ s.all) :
    ¬Stays optional twin n j ∧ (∃ a, j < a ∧ Stays optional twin n a) ∧ ∃ b, m ≤ b ∧ b < j ∧ Stays optional twin n b := by
  simp only [Seen.all,List.mem_append,not_or] at hidden
  obtain ⟨⟨notLeading,notKept⟩,notTrailing⟩ := hidden
  have dropped : ¬Stays optional twin n j := fun stays => notKept ((behind.kept j).mpr ⟨low,stays⟩)
  have other : ∀ a, Stays optional twin n a → a ≠ j := fun a stays same => dropped (same ▸ stays)
  have after : ∃ a, j < a ∧ Stays optional twin n a := by
    by_contra none
    refine notLeading ((behind.leading j).mpr ⟨low,bound,fun a above stays => none ⟨a,?_,stays⟩⟩)
    exact lt_of_le_of_ne above (other a stays).symm
  refine ⟨dropped,after,?_⟩
  by_contra none
  refine notTrailing ((behind.trailing j).mpr ⟨low,bound,after,fun b above below stays => none ⟨b,above,?_,stays⟩⟩)
  exact lt_of_le_of_ne below (other b stays)

-- If every twin is hidden, it is between the same two nodes.
theorem stays_hidden (bound : i < n) (behind : Behind optional twin n (i + 1) s)
    (hidden : ∀ j < n, twin i j = true → i < j ∧ j ∉ s.all) : Stays optional twin n i := by
  by_cases lone : ∀ j < n, twin i j = false
  · exact .sole bound lone
  obtain ⟨j,inside,paired⟩ : ∃ j < n, twin i j = true := by
    by_contra none
    exact lone fun j inside => Bool.eq_false_iff.mpr fun paired => none ⟨j,inside,paired⟩
  obtain ⟨above,unseen⟩ := hidden j inside paired
  obtain ⟨_,⟨a,_,later⟩,b,low,_,next⟩ := behind_hidden behind above inside unseen
  classical
  obtain ⟨greatest,top,most⟩ : ∃ x, Stays optional twin n x ∧ ∀ y, Stays optional twin n y → y ≤ x := by
    refine ⟨Nat.findGreatest (Stays optional twin n) n,Nat.findGreatest_spec (Nat.le_of_lt (stays_bound later)) later,fun y stays => ?_⟩
    exact Nat.le_findGreatest (Nat.le_of_lt (stays_bound stays)) stays
  have some_ : ∃ x, i < x ∧ Stays optional twin n x := ⟨b,low,next⟩
  obtain ⟨least,⟨beyond,bottom⟩,fewest⟩ : ∃ x, (i < x ∧ Stays optional twin n x) ∧ ∀ y, i < y → Stays optional twin n y → x ≤ y :=
    ⟨Nat.find some_,Nat.find_spec some_,fun y beyond stays => Nat.find_min' some_ ⟨beyond,stays⟩⟩
  refine .first top bottom beyond fun k inside paired => ?_
  obtain ⟨above,unseen⟩ := hidden k inside paired
  obtain ⟨dropped,⟨a,beyond,later⟩,b,low,under,next⟩ := behind_hidden behind above inside unseen
  refine ⟨?_,lt_of_le_of_lt (fewest b low next) under,lt_of_lt_of_le beyond (most a later)⟩
  by_contra firm
  exact dropped (.firm inside (Bool.not_eq_true _ ▸ firm))

-- The twins of a node that stays have been hidden.
theorem stays_unseen (twins : Twins optional twin n) (behind : Behind optional twin n (i + 1) s) (stays : Stays optional twin n i)
    (free : optional i = true) {j : Nat} (inside : j < n) (paired : twin i j = true) : i < j ∧ j ∉ s.all := by
  have bound := stays_bound stays
  have back := twins.back i j bound inside free paired
  cases stays with
  | firm _ firm => rw [free] at firm; cases firm
  | sole _ sole => rw [sole j inside] at paired; cases paired
  | @first _ a b later next above between =>
    obtain ⟨loose,low,high⟩ := between j inside paired
    have dropped : ¬Stays optional twin n j := by
      intro stays
      cases stays with
      | firm _ firm => rw [loose] at firm; cases firm
      | sole _ sole => rw [sole i bound] at back; cases back
      | first _ _ beyond between' =>
        have under := (between' i bound back).2.1
        omega
    refine ⟨Nat.lt_trans above low,fun seen => ?_⟩
    simp only [Seen.all,List.mem_append] at seen
    rcases seen with (leading | kept) | trailing
    · exact ((behind.leading j).mp leading).2.2 a (Nat.le_of_lt high) later
    · exact dropped ((behind.kept j).mp kept).2
    · exact ((behind.trailing j).mp trailing).2.2.2 b above (Nat.le_of_lt low) next

-- What the scan meets at a node: what has been seen, itself and the nodes below.
theorem dropped_iff (twins : Twins optional twin n) (bound : i < n) (behind : Behind optional twin n (i + 1) s) :
    (optional i && (s.all ++ i :: (List.range i).reverse).any (twin i)) = true ↔ ¬Stays optional twin n i := by
  simp only [Bool.and_eq_true,List.any_eq_true,List.mem_append,List.mem_cons,List.mem_reverse,List.mem_range]
  constructor
  · rintro ⟨free,j,met,paired⟩ stays
    have inside : j < n := by
      rcases met with seen | rfl | below
      · simp only [Seen.all,List.mem_append] at seen
        rcases seen with (leading | kept) | trailing
        · exact ((behind.leading j).mp leading).2.1
        · exact stays_bound ((behind.kept j).mp kept).2
        · exact ((behind.trailing j).mp trailing).2.1
      · exact bound
      · omega
    obtain ⟨above,unseen⟩ := stays_unseen twins behind stays free inside paired
    rcases met with seen | rfl | below
    · exact unseen seen
    · omega
    · omega
  · intro dropped
    have free : optional i = true := by
      by_contra firm
      exact dropped (.firm bound (Bool.not_eq_true _ ▸ firm))
    refine ⟨free,?_⟩
    by_contra none
    refine dropped (stays_hidden bound behind fun j inside paired => ?_)
    have unmet : ¬(j ∈ s.all ∨ j = i ∨ j < i) := fun met => none ⟨j,met,paired⟩
    simp only [not_or] at unmet
    exact ⟨by omega,unmet.1⟩

theorem behind_keep (behind : Behind optional twin n (i + 1) s) (stays : Stays optional twin n i) :
    Behind optional twin n i (s.keep i) where
  kept w := by
    have old := behind.kept w
    simp only [Seen.keep,List.mem_append,List.mem_singleton,old]
    constructor
    · rintro (⟨low,holds⟩ | rfl)
      · exact ⟨by omega,holds⟩
      · exact ⟨Nat.le_refl _,stays⟩
    · rintro ⟨low,holds⟩
      rcases Nat.eq_or_lt_of_le low with same | above
      · exact .inr same.symm
      · exact .inl ⟨above,holds⟩
  leading w := by
    have old := behind.leading w
    simp only [Seen.keep,old]
    constructor
    · rintro ⟨low,rest⟩
      exact ⟨by omega,rest⟩
    · rintro ⟨low,bound,none⟩
      rcases Nat.eq_or_lt_of_le low with rfl | above
      · exact absurd stays (none i (Nat.le_refl _))
      · exact ⟨above,bound,none⟩
  trailing w := by
    simp only [Seen.keep,List.not_mem_nil,false_iff]
    rintro ⟨low,_,_,none⟩
    exact none i (Nat.le_refl _) low stays

theorem behind_drop (bound : i < n) (behind : Behind optional twin n (i + 1) s) (dropped : ¬Stays optional twin n i) :
    Behind optional twin n i (s.drop i) := by
  have kept : ∀ w, w ∈ s.kept ↔ i ≤ w ∧ Stays optional twin n w := by
    intro w
    rw [behind.kept w]
    constructor
    · rintro ⟨low,holds⟩
      exact ⟨by omega,holds⟩
    · rintro ⟨low,holds⟩
      rcases Nat.eq_or_lt_of_le low with rfl | above
      · exact absurd holds dropped
      · exact ⟨above,holds⟩
  unfold Seen.drop
  split
  · rename_i empty
    have none : ∀ a, i ≤ a → ¬Stays optional twin n a := by
      intro a low stays
      have member := (kept a).mpr ⟨low,stays⟩
      rw [empty] at member
      cases member
    refine ⟨fun w => ?_,fun w => ?_,fun w => ?_⟩
    · rw [← kept w,empty]
    · simp only [List.mem_append,List.mem_singleton,behind.leading w]
      constructor
      · rintro (⟨low,rest⟩ | rfl)
        · exact ⟨by omega,rest⟩
        · exact ⟨Nat.le_refl _,bound,none⟩
      · rintro ⟨low,rest⟩
        rcases Nat.eq_or_lt_of_le low with same | above
        · exact .inr same.symm
        · exact .inl ⟨above,rest⟩
    · simp only [List.not_mem_nil,false_iff]
      rintro ⟨low,_,⟨a,above,stays⟩,_⟩
      exact none a (by omega) stays
  · rename_i nonempty
    obtain ⟨x,member⟩ := List.exists_mem_of_ne_nil _ nonempty
    obtain ⟨low,stays⟩ := (behind.kept x).mp member
    refine ⟨kept,fun w => ?_,fun w => ?_⟩
    · rw [behind.leading w]
      constructor
      · rintro ⟨low,rest⟩
        exact ⟨by omega,rest⟩
      · rintro ⟨low',inside,none⟩
        rcases Nat.eq_or_lt_of_le low' with rfl | above
        · exact absurd stays (none x (by omega))
        · exact ⟨above,inside,none⟩
    · simp only [List.mem_append,List.mem_singleton,behind.trailing w]
      constructor
      · rintro (⟨low,inside,later,none⟩ | rfl)
        · refine ⟨by omega,inside,later,fun b above below => ?_⟩
          rcases Nat.eq_or_lt_of_le above with rfl | above
          · exact dropped
          · exact none b above below
        · refine ⟨Nat.le_refl _,bound,⟨x,low,stays⟩,fun b above below => ?_⟩
          cases Nat.le_antisymm above below
          exact dropped
      · rintro ⟨low',inside,later,none⟩
        rcases Nat.eq_or_lt_of_le low' with same | above
        · exact .inr same.symm
        · exact .inl ⟨above,inside,later,fun b beyond => none b (by omega)⟩

theorem behind_run (twins : Twins optional twin n) (inside : m ≤ n) (behind : Behind optional twin n m s) :
    Behind optional twin n 0 (Seen.run optional twin (List.range m).reverse s) := by
  induction m generalizing s with
  | zero => exact behind
  | succ i ih =>
    rw [List.range_succ,List.reverse_append,List.reverse_singleton,List.singleton_append,Seen.run]
    apply ih (Nat.le_of_succ_le inside)
    unfold Seen.step
    split
    · rename_i dropped
      exact behind_drop inside behind ((dropped_iff twins inside behind).mp dropped)
    · rename_i kept
      exact behind_keep behind (not_not.mp fun dropped => kept ((dropped_iff twins inside behind).mpr dropped))

-- The scan keeps the nodes that stay, and no others.
theorem run_stays (twins : Twins optional twin n) (w : Nat) :
    w ∈ (Seen.run optional twin (List.range n).reverse ⟨[],[],[]⟩).kept ↔ Stays optional twin n w := by
  have start : Behind optional twin n n ⟨[],[],[]⟩ := by
    refine ⟨fun w => ?_,fun w => ?_,fun w => ?_⟩
    all_goals
      simp only [List.not_mem_nil,false_iff]
    · rintro ⟨low,stays⟩
      have := stays_bound stays
      omega
    · rintro ⟨low,bound,_⟩
      omega
    · rintro ⟨low,bound,_⟩
      omega
  have ended := (behind_run twins (Nat.le_refl n) start).kept w
  simpa using ended

end

end SandboxStack.RelinkedScan
