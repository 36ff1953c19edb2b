import SandboxStack.CTypes
import SandboxStack.IntegerTypes

namespace SandboxStack.Cc

-- The integer types smaller than int; _Bool is an unsigned byte.
def Ty.smallType : Ty → Option IntType
  | .bool => some ⟨8,true⟩
  | .char u => some ⟨8,u⟩
  | .short u => some ⟨16,u⟩
  | _ => none

def smallTypeOf (ty : Option Ty) : Option IntType := ty.bind Ty.smallType

-- The zero or sign extension of the low bits of a word.
def extendedBits (t : IntType) (v : U32) : U32 :=
  if t.unsigned then (v.setWidth t.bits).setWidth 32 else (v.setWidth t.bits).signExtend 32

def Canonical (t : IntType) (v : U32) : Prop := v = extendedBits t v

instance (t : IntType) (v : U32) : Decidable (Canonical t v) := inferInstanceAs (Decidable (v = extendedBits t v))

section
variable {ty : Ty} {t : IntType} {v : U32} {k : Nat}

theorem small_bits (small : ty.smallType = some t) : t.bits = 8 ∨ t.bits = 16 := by
  cases ty <;> cases small <;> simp

theorem small_narrow (small : ty.smallType = some t) : t.bits ≤ 32 := by
  rcases small_bits small with bits | bits <;> omega

-- A word is canonical when its value is one of the type's.
theorem canonical_range (narrow : t.bits ≤ 32) : Canonical t v ↔ t.InRange (t.value v) := by
  unfold Canonical extendedBits IntType.InRange IntType.wrap IntType.value
  cases t.unsigned with
  | true =>
    simp only [if_true]
    rw [← BitVec.toNat_inj,BitVec.toNat_setWidth,BitVec.toNat_setWidth]
    have low : v.toNat % 2 ^ t.bits < 2 ^ 32 :=
      lt_of_lt_of_le (Nat.mod_lt _ (Nat.two_pow_pos _)) (Nat.pow_le_pow_right (by decide) narrow)
    rw [Nat.mod_eq_of_lt low]
    norm_cast
    exact eq_comm
  | false =>
    simp only [Bool.false_eq_true,if_false]
    rw [← BitVec.toInt_inj,BitVec.toInt_signExtend_of_le narrow,BitVec.toInt_setWidth]
    have same : (v.toNat : Int).bmod (2 ^ t.bits) = v.toInt.bmod (2 ^ t.bits) := by
      rw [BitVec.toInt_eq_toNat_bmod,Int.bmod_bmod_of_dvd (Nat.pow_dvd_pow 2 narrow)]
    rw [same]
    exact eq_comm

theorem canonical_unsigned (narrow : t.bits ≤ 32) (unsigned : t.unsigned = true) : Canonical t v ↔ v.toNat < 2 ^ t.bits := by
  rw [canonical_range narrow,IntType.range_unsigned unsigned]
  unfold IntType.value
  rw [if_pos unsigned]
  norm_cast
  exact and_iff_right (Nat.zero_le _)

theorem canonical_signed (narrow : t.bits ≤ 32) (sized : 0 < t.bits) (signed : t.unsigned = false) :
    Canonical t v ↔ -2 ^ (t.bits - 1) ≤ v.toInt ∧ v.toInt < 2 ^ (t.bits - 1) := by
  rw [canonical_range narrow,IntType.range_signed signed sized]
  unfold IntType.value
  rw [if_neg (by simp [signed])]

theorem canonical_extended (narrow : t.bits ≤ 32) (x : BitVec t.bits) :
    Canonical t (if t.unsigned then x.setWidth 32 else x.signExtend 32) := by
  have range : t.InRange (t.value x) := IntType.value_range
  rw [canonical_range narrow]
  unfold IntType.value at range ⊢
  cases unsigned : t.unsigned with
  | true =>
    rw [unsigned] at range
    simp only [if_true] at range ⊢
    have low : x.toNat < 2 ^ 32 := lt_of_lt_of_le x.isLt (Nat.pow_le_pow_right (by decide) narrow)
    rwa [BitVec.toNat_setWidth,Nat.mod_eq_of_lt low]
  | false =>
    rw [unsigned] at range
    simp only [Bool.false_eq_true,if_false] at range ⊢
    rwa [BitVec.toInt_signExtend_of_le narrow]

theorem canonical_boolean (small : ty.smallType = some t) (b : Bool) : Canonical t (if b then 1 else 0) := by
  rcases small_bits small with bits | bits
  all_goals
    obtain ⟨_,u⟩ := t
    cases bits
    cases u <;> cases b <;> decide

-- A complement is in range when the type is signed, and never when it is not.
theorem canonical_not (small : ty.smallType = some t) (canonical : Canonical t v) : Canonical t (~~~v) ↔ t.unsigned = false := by
  have narrow := small_narrow small
  have sized : 0 < t.bits := by rcases small_bits small with bits | bits <;> omega
  cases unsigned : t.unsigned with
  | true =>
    rw [canonical_unsigned narrow unsigned] at canonical ⊢
    have high : 2 ^ t.bits ≤ 2 ^ 16 := Nat.pow_le_pow_right (by decide) (by rcases small_bits small with bits | bits <;> omega)
    rw [BitVec.toNat_not]
    simp only [Bool.true_eq_false,iff_false]
    omega
  | false =>
    rw [canonical_signed narrow sized unsigned] at canonical ⊢
    have value : (~~~v).toInt = -v.toInt - 1 := by
      rw [BitVec.toInt_not]
      have one := v.isLt
      have two := BitVec.toInt_eq_toNat_cond v
      rw [Int.bmod_def]
      split at two <;> omega
    rw [value]
    refine iff_of_true ⟨?_,?_⟩ rfl <;> omega

theorem canonical_shr (small : ty.smallType = some t) (canonical : Canonical t v) (k : Nat) :
    Canonical t (if ty.isUnsigned then v >>> k else v.sshiftRight k) := by
  have narrow : t.bits ≤ 16 := by rcases small_bits small with bits | bits <;> omega
  have sized : 0 < t.bits := by rcases small_bits small with bits | bits <;> omega
  cases unsigned : t.unsigned with
  | true =>
    -- A _Bool is shifted as a signed word, which its sign bit makes no different.
    have logical : (if ty.isUnsigned then v >>> k else v.sshiftRight k) = v >>> k := by
      rw [canonical_unsigned (by omega) unsigned] at canonical
      have low : v.toNat < 2 ^ 16 := lt_of_lt_of_le canonical (Nat.pow_le_pow_right (by decide) narrow)
      have positive : v.msb = false := by rw [BitVec.msb_eq_false_iff_two_mul_lt]; omega
      split
      · rfl
      · exact BitVec.sshiftRight_eq_of_msb_false positive
    rw [logical]
    rw [canonical_unsigned (by omega) unsigned] at canonical ⊢
    rw [BitVec.toNat_ushiftRight]
    exact lt_of_le_of_lt (Nat.shiftRight_le ..) canonical
  | false =>
    have arithmetic : ty.isUnsigned = false := by
      cases ty <;> cases small <;> first | exact unsigned | cases unsigned
    rw [arithmetic]
    rw [canonical_range (by omega)] at canonical ⊢
    unfold IntType.value at canonical ⊢
    rw [unsigned] at canonical ⊢
    simp only [Bool.false_eq_true,if_false] at canonical ⊢
    rw [BitVec.toInt_sshiftRight,Int.shiftRight_eq_div_pow]
    exact_mod_cast IntType.shift_range sized canonical k

-- Shifted left, it is in range as the product is, of 32 bits.
theorem canonical_shl (small : ty.smallType = some t) (k : Nat) :
    Canonical t (v <<< k) ↔ t.InRange ((IntType.mk 32 t.unsigned).wrap (t.value v * 2 ^ k)) := by
  rw [canonical_range (small_narrow small)]
  have product : t.value (v <<< k) = (IntType.mk 32 t.unsigned).wrap (t.value v * 2 ^ k) := by
    rw [← IntType.value_ofInt,IntType.ofInt_shift]
    have same : BitVec.ofInt (IntType.mk 32 t.unsigned).bits (t.value v) = v := IntType.ofInt_value
    rw [same]
    rfl
  rw [product]

end

end SandboxStack.Cc
