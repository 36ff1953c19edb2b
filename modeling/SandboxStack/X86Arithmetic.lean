import SandboxStack.IntegerTypes
import SandboxStack.X86Machine

namespace SandboxStack.X86
open IntType LittleEndian

section
variable {n : Nat} {x y hi lo : BitVec n}

-- Sign and overflow of a difference tell the order of signed numbers.
theorem order_signed (sized : 0 < n) : ((x - y).msb != x.ssubOverflow y) = x.slt y := by
  obtain ⟨k,rfl⟩ : ∃ k, n = k + 1 := ⟨n - 1,by omega⟩
  have lowX := BitVec.le_toInt x
  have highX := BitVec.toInt_lt (x := x)
  have lowY := BitVec.le_toInt y
  have highY := BitVec.toInt_lt (x := y)
  have double : ((2 ^ (k + 1) : Nat) : Int) = 2 * 2 ^ k := by
    rw [Nat.pow_succ,Nat.mul_comm]
    push_cast
    rfl
  have difference := BitVec.toInt_sub (x := x) (y := y)
  rw [Int.bmod_def,double] at difference
  rw [BitVec.msb_eq_toInt,BitVec.slt_eq_decide,BitVec.ssubOverflow]
  simp only [Nat.add_sub_cancel] at *
  have half := two_pow_pos k
  generalize (2 : Int) ^ k = h at *
  generalize x.toInt = a at *
  generalize y.toInt = b at *
  generalize (x - y).toInt = d at *
  rw [Bool.eq_iff_iff]
  simp only [bne_iff_ne,ne_eq,decide_eq_true_eq]
  by_cases less : a < b
  · simp only [less,iff_true]
    by_cases low : a - b < -h
    · have rest : (a - b) % (2 * h) = a - b + 2 * h := by
        rw [← Int.add_emod_right,Int.emod_eq_of_lt] <;> omega
      rw [rest] at difference
      have nonneg : ¬d < 0 := by split at difference <;> omega
      simp [nonneg,low]
    · have rest : (a - b) % (2 * h) = a - b + 2 * h := by
        rw [← Int.add_emod_right,Int.emod_eq_of_lt] <;> omega
      rw [rest] at difference
      have negative : d < 0 := by split at difference <;> omega
      have fits : ¬h ≤ a - b := by omega
      simp [negative,low,fits]
  · simp only [less,iff_false,not_not]
    have rest : (a - b) % (2 * h) = a - b := Int.emod_eq_of_lt (by omega) (by omega)
    rw [rest] at difference
    by_cases high : h ≤ a - b
    · have negative : d < 0 := by split at difference <;> omega
      simp [negative,high]
    · have nonneg : ¬d < 0 := by split at difference <;> omega
      have fits : ¬a - b < -h := by omega
      simp [nonneg,high,fits]

theorem holds_be : Condition.be.holds (compared x y) = x.ule y := by
  simp only [Condition.holds,compared]
  rw [Bool.eq_iff_iff]
  simp only [Bool.or_eq_true,beq_iff_eq,BitVec.ult_eq_decide,BitVec.ule_eq_decide,decide_eq_true_eq]
  constructor
  · rintro (less | rfl)
    · exact Nat.le_of_lt less
    · exact Nat.le_refl _
  · intro atMost
    rcases Nat.lt_or_eq_of_le atMost with less | same
    · exact .inl less
    · exact .inr (BitVec.eq_of_toNat_eq same)

theorem holds_l (sized : 0 < n) : Condition.l.holds (compared x y) = x.slt y := order_signed sized

theorem holds_le (sized : 0 < n) : Condition.le.holds (compared x y) = x.sle y := by
  have less := order_signed (x := x) (y := y) sized
  simp only [Condition.holds,compared,less]
  rw [Bool.eq_iff_iff]
  simp only [Bool.or_eq_true,beq_iff_eq,BitVec.slt_eq_decide,BitVec.sle_eq_decide,decide_eq_true_eq]
  constructor
  · rintro (rfl | less)
    · exact Int.le_refl _
    · exact Int.le_of_lt less
  · intro atMost
    rcases Int.lt_or_eq_of_le atMost with less | same
    · exact .inr less
    · exact .inl (BitVec.eq_of_toInt_eq same)

theorem double_unsigned : ((0 : BitVec n) ++ lo).toNat = lo.toNat := by
  rw [BitVec.toNat_append]
  simp

theorem double_signed : ((if lo.msb then -1 else 0 : BitVec n) ++ lo).toInt = lo.toInt := by
  rw [BitVec.toInt_append]
  split
  · rfl
  rename_i sized
  have positive : 0 < n := by simpa [Nat.pos_iff_ne_zero] using sized
  rw [BitVec.toInt_eq_msb_cond lo]
  cases lo.msb with
  | true =>
    have ones : (-1 : BitVec n) = BitVec.allOnes n := BitVec.neg_one_eq_allOnes
    have minus : (-1 : BitVec n).toInt = -1 := by
      rw [ones,BitVec.toInt_allOnes,if_pos positive]
    rw [if_pos rfl,if_pos rfl,minus]
    push_cast
    omega
  | false => simp

end

section
variable {t : IntType} {a b : Int}

-- A division with the dividend extended by its own sign.
def extension (t : IntType) (lo : BitVec t.bits) : BitVec t.bits := if !t.unsigned && lo.msb then -1 else 0

theorem divided_agrees (one : t.InRange a) (two : t.InRange b) :
    divided (!t.unsigned) (extension t (BitVec.ofInt t.bits a)) (BitVec.ofInt t.bits a) (BitVec.ofInt t.bits b) =
      if b = 0 ∨ ¬t.InRange (a.tdiv b) then .error .divide
      else .ok (BitVec.ofInt t.bits (a.tdiv b),BitVec.ofInt t.bits (a.tmod b)) := by
  unfold divided extension
  by_cases zero : b = 0
  · rw [if_pos ((ofInt_zero_iff two).mpr zero),if_pos (.inl zero)]
  rw [if_neg ((ofInt_zero_iff two).not.mpr zero)]
  cases unsigned : t.unsigned with
  | true =>
    have fits := (truncated_range unsigned one two).1
    have outcome : ¬(b = 0 ∨ ¬t.InRange (a.tdiv b)) := by simp [zero,fits]
    rw [if_neg outcome]
    simp only [Bool.not_true,Bool.false_and,Bool.false_eq_true,if_false,double_unsigned]
    rw [if_pos (Nat.lt_of_le_of_lt (Nat.div_le_self _ _) (BitVec.isLt _)),ofInt_udiv unsigned one two,
      ofInt_umod unsigned one two,← BitVec.toNat_udiv,← BitVec.toNat_umod,BitVec.ofNat_toNat,BitVec.ofNat_toNat,
      BitVec.setWidth_eq,BitVec.setWidth_eq]
  | false =>
    simp only [Bool.not_false,Bool.true_and,if_true,double_signed]
    rw [toInt_of unsigned one,toInt_of unsigned two]
    have same : (BitVec.ofInt t.bits (a.tdiv b)).toInt = a.tdiv b ↔ t.InRange (a.tdiv b) := by
      unfold InRange wrap
      rw [if_neg (by simp [unsigned]),BitVec.toInt_ofInt]
    simp only [same,zero,false_or]
    split <;> simp [*]

end

end SandboxStack.X86
