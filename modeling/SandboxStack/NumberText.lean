import Mathlib

namespace SandboxStack.NumberText

-- Numbers as they are printed and read, up to base 16.
def digitText (d : Nat) : Char :=
  match d with
  | 0 => '0' | 1 => '1' | 2 => '2' | 3 => '3' | 4 => '4' | 5 => '5' | 6 => '6' | 7 => '7'
  | 8 => '8' | 9 => '9' | 10 => 'A' | 11 => 'B' | 12 => 'C' | 13 => 'D' | 14 => 'E' | _ => 'F'

def digitValue (c : Char) : Option Nat :=
  if '0' ≤ c ∧ c ≤ '9' then some (c.toNat - '0'.toNat)
  else if 'a' ≤ c ∧ c ≤ 'f' then some (c.toNat - 'a'.toNat + 10)
  else if 'A' ≤ c ∧ c ≤ 'F' then some (c.toNat - 'A'.toNat + 10)
  else none

def isDigit (base : Nat) (c : Char) : Bool := (digitValue c).any fun d => d < base

def written (base n : Nat) : List Char :=
  if n = 0 then ['0'] else (base.digits n).reverse.map digitText

-- `%08X` and its like.
def padded (width base n : Nat) : List Char := List.replicate (width - (written base n).length) '0' ++ written base n

def readOn (base : Nat) (n : Nat) (cs : List Char) : Nat := cs.foldl (fun n c => base * n + (digitValue c).getD 0) n

def read (base : Nat) (cs : List Char) : Nat := readOn base 0 cs

section
variable {base n d : Nat} {cs cs' : List Char}

theorem digitValue_text (small : d < 16) : digitValue (digitText d) = some d := by
  have all : ∀ d : Fin 16, digitValue (digitText d) = some d.val := by decide
  exact all ⟨d,small⟩

theorem isDigit_text (small : d < base) (bounded : base ≤ 16) : isDigit base (digitText d) = true := by
  rw [isDigit,digitValue_text (Nat.lt_of_lt_of_le small bounded)]
  simpa using small

-- The digits of base 10 are those of Char.
theorem ten_digit {c : Char} (digit : isDigit 10 c = true) : c.isDigit = true := by
  have ranges : '0' ≤ c ∧ c ≤ '9' := by
    unfold isDigit digitValue at digit
    split at digit
    · assumption
    · split at digit
      · simp at digit
      · split at digit
        · simp at digit
        · cases digit
  simpa [Char.isDigit,Char.le_def,UInt32.le_iff_toNat_le] using ranges

theorem written_isDigit (positive : 1 < base) (bounded : base ≤ 16) {c : Char} (member : c ∈ written base n) :
    isDigit base c = true := by
  unfold written at member
  split at member
  · cases List.mem_singleton.mp member
    exact isDigit_text (d := 0) (by omega) bounded
  · obtain ⟨d,digit,rfl⟩ := List.mem_map.mp member
    exact isDigit_text (Nat.digits_lt_base positive (List.mem_reverse.mp digit)) bounded

theorem written_nonempty : written base n ≠ [] := by
  unfold written
  split
  · exact List.cons_ne_nil _ _
  · rename_i positive
    simpa [Nat.digits_eq_nil_iff_eq_zero] using positive

-- A number that is not 0 does not start with 0.
theorem written_head (positive : 1 < base) (bounded : base ≤ 16) (nonzero : n ≠ 0) :
    ∃ c rest, written base n = c :: rest ∧ c ≠ '0' := by
  obtain ⟨front,d,digits⟩ := List.eq_nil_or_concat (base.digits n) |>.resolve_left fun empty =>
    nonzero (Nat.digits_eq_nil_iff_eq_zero.mp empty)
  refine ⟨digitText d,front.reverse.map digitText,?_,?_⟩
  · simp [written,nonzero,digits]
  · have last := Nat.getLast_digit_ne_zero base nonzero
    have member : d ∈ base.digits n := by simp [digits]
    simp [digits] at last
    have small : d < 16 := Nat.lt_of_lt_of_le (Nat.digits_lt_base positive member) bounded
    have value := digitValue_text small
    intro zero
    rw [zero] at value
    exact last (Option.some.inj value).symm

theorem readOn_append : readOn base n (cs ++ cs') = readOn base (readOn base n cs) cs' := List.foldl_append

theorem readOn_zeros {k : Nat} : readOn base 0 (List.replicate k '0') = 0 := by
  induction k with
  | zero => rfl
  | succ k ih =>
    rw [List.replicate_succ]
    exact ih

theorem read_written (positive : 1 < base) (bounded : base ≤ 16) : read base (written base n) = n := by
  have digits : ∀ ds : List Nat, (∀ d ∈ ds, d < base) →
      readOn base 0 (ds.reverse.map digitText) = Nat.ofDigits base ds := by
    intro ds
    induction ds with
    | nil => intro _; rfl
    | cons d ds ih =>
      intro small
      have value := digitValue_text (Nat.lt_of_lt_of_le (small d (.head _)) bounded)
      rw [List.reverse_cons,List.map_append,readOn_append,ih fun d member => small d (.tail _ member),Nat.ofDigits_cons]
      simp only [readOn,List.map_cons,List.map_nil,List.foldl_cons,List.foldl_nil,value,Option.getD_some]
      exact Nat.add_comm _ _
  unfold read written
  split
  · rename_i zero
    subst zero
    rfl
  · rw [digits _ fun d member => Nat.digits_lt_base positive member,Nat.ofDigits_digits]

theorem read_padded {width : Nat} (positive : 1 < base) (bounded : base ≤ 16) : read base (padded width base n) = n := by
  rw [read,padded,readOn_append,readOn_zeros]
  exact read_written positive bounded

theorem padded_isDigit {width : Nat} (positive : 1 < base) (bounded : base ≤ 16) {c : Char}
    (member : c ∈ padded width base n) : isDigit base c = true := by
  rcases List.mem_append.mp member with zero | digit
  · rw [List.eq_of_mem_replicate zero]
    exact isDigit_text (d := 0) (by omega) bounded
  · exact written_isDigit positive bounded digit

end

end SandboxStack.NumberText
