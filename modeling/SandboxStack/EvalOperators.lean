import SandboxStack.ConstExpr
import SandboxStack.IntegerExpressions

namespace SandboxStack.Cc
open Wasm IntType

-- The residue of a value that a cast to its type leaves in the evaluator.
def word (t : IntType) (z : Int) : Int := if t.bits = 32 then low z else z

section
variable {t : IntType} {a b v z : Int} {ty operandTy : Ty} {op : BinaryKind} {u : Bool}

theorem low_word (v : Int) : ((BitVec.ofInt 64 v).setWidth 32).setWidth 64 = BitVec.ofInt 64 (low v) := by
  have range : (IntType.mk 32 true).InRange (low v) := wrap_range (t := ⟨32,true⟩)
  have residue : BitVec.ofInt 32 (low v) = BitVec.ofInt 32 v := ofInt_wrap (t := ⟨32,true⟩)
  have extended := zeroExtend_of rfl range 64
  rw [truncate_of (by decide),← residue]
  exact extended

theorem integer_unsigned (known : Word ty t) (integer : ty.isInteger = true) : ty.isUnsigned = t.unsigned := by
  have unsigned := known.unsigned
  cases ty <;> simp_all [Ty.isInteger,Ty.isPtr]

theorem evalCast_word (known : Word ty t) (integer : ty.isInteger = true) (v : Int) :
    evalCast ty (BitVec.ofInt 64 v) = BitVec.ofInt 64 (word t v) := by
  have size := known.size
  unfold evalCast word
  rcases known.wide with bits | bits
  · have four : ty.size ilp32 = 4 := by omega
    rw [if_pos integer,four,if_pos bits]
    exact low_word v
  · have eight : ty.size ilp32 = 8 := by omega
    have long : ¬t.bits = 32 := by omega
    rw [if_pos integer,eight,if_neg long]
    rfl

theorem embed_range (wide : t.bits = 32 ∨ t.bits = 64) (range : t.InRange z) :
    (IntType.mk 64 t.unsigned).InRange z := by
  obtain ⟨bits,u⟩ := t
  rcases wide with rfl | rfl
  · cases u with
    | true =>
      rw [range_unsigned rfl] at range ⊢
      dsimp only at range ⊢
      omega
    | false =>
      rw [range_signed rfl (by decide)] at range ⊢
      dsimp only at range ⊢
      omega
  · exact range

-- What a cast leaves is a number of 64 bits, and the value itself if that is not negative.
theorem word_range (wide : t.bits = 32 ∨ t.bits = 64) (range : t.InRange z) :
    (IntType.mk 64 t.unsigned).InRange (word t z) := by
  unfold word
  split
  · have positive : (0 : Int) < 2 ^ 32 := by decide
    have least := Int.emod_nonneg z (Int.ne_of_gt positive)
    have most := Int.emod_lt_of_pos z positive
    unfold low
    cases u : t.unsigned with
    | true => rw [range_unsigned rfl]; dsimp only; omega
    | false => rw [range_signed rfl (by decide)]; dsimp only; omega
  · exact embed_range wide range

theorem word_nonneg (wide : t.bits = 32 ∨ t.bits = 64) (range : t.InRange z)
    (nonneg : t.bits = 32 → t.unsigned = false → 0 ≤ z) : word t z = z := by
  obtain ⟨bits,u⟩ := t
  unfold word low
  split
  · rename_i short
    dsimp only at short
    subst short
    cases u with
    | true =>
      rw [range_unsigned rfl] at range
      exact Int.emod_eq_of_lt range.1 range.2
    | false =>
      have positive := nonneg rfl rfl
      rw [range_signed rfl (by decide)] at range
      dsimp only at range
      exact Int.emod_eq_of_lt positive (by omega)
  · rfl

theorem word_congruent (t : IntType) (z : Int) : word t z % 2 ^ t.bits = z % 2 ^ t.bits := by
  unfold word low
  split
  · rename_i short
    rw [short]
    exact Int.emod_emod_of_dvd _ (Int.dvd_refl _)
  · rfl

theorem nonzero_divisor (range : (IntType.mk 64 u).InRange b) (nonzero : b ≠ 0) : ¬BitVec.ofInt 64 b = 0 :=
  (ofInt_zero_iff range).not.mpr nonzero

theorem division_safe (one : (IntType.mk 64 u).InRange a) (two : (IntType.mk 64 u).InRange b) (nonzero : b ≠ 0)
    (fits : (IntType.mk 64 u).InRange (a.tdiv b)) :
    ¬(BitVec.ofInt 64 b = 0 ∨ u = false ∧ BitVec.ofInt 64 a = BitVec.intMin 64 ∧ BitVec.ofInt 64 b = -1) := by
  rintro (zero | ⟨signed,extreme⟩)
  · exact nonzero_divisor two nonzero zero
  · exact (quotient_overflow signed (Nat.zero_lt_succ 63) one two).mpr extreme fits

theorem hostDivide_exact (one : (IntType.mk 64 u).InRange a) (two : (IntType.mk 64 u).InRange b) (nonzero : b ≠ 0)
    (fits : (IntType.mk 64 u).InRange (a.tdiv b)) :
    hostDivide u (BitVec.ofInt 64 a) (BitVec.ofInt 64 b) = .ok (BitVec.ofInt 64 (a.tdiv b)) := by
  unfold hostDivide
  rw [if_neg (division_safe one two nonzero fits)]
  cases u with
  | true => exact congrArg _ (ofInt_udiv rfl one two).symm
  | false => exact congrArg _ (ofInt_sdiv rfl one two).symm

theorem hostModulo_exact (one : (IntType.mk 64 u).InRange a) (two : (IntType.mk 64 u).InRange b) (nonzero : b ≠ 0)
    (fits : (IntType.mk 64 u).InRange (a.tdiv b)) :
    hostModulo u (BitVec.ofInt 64 a) (BitVec.ofInt 64 b) = .ok (BitVec.ofInt 64 (a.tmod b)) := by
  unfold hostModulo
  rw [if_neg (division_safe one two nonzero fits)]
  cases u with
  | true => exact congrArg _ (ofInt_umod rfl one two).symm
  | false => exact congrArg _ (ofInt_srem rfl one two).symm

theorem hostShift_exact (shift : U64 → Nat → U64) (x : U64) (least : 0 ≤ b) (most : b < 64) :
    hostShift shift x (BitVec.ofInt 64 b) = .ok (shift x b.toNat) := by
  have range : (IntType.mk 64 false).InRange b := by
    rw [range_signed rfl (by decide)]
    dsimp only
    omega
  have value : (BitVec.ofInt 64 b).toInt = b := toInt_of rfl range
  have count := count_exact (w := 64) least (by exact_mod_cast most)
  have small : (BitVec.ofInt 64 b).toNat = b.toNat := by
    rw [BitVec.toInt_eq_toNat_cond] at value
    split at value <;> omega
  unfold hostShift
  rw [if_neg (by rw [value]; omega),small]

theorem hostTruth_of (p : Bool) : hostTruth p = BitVec.ofInt 64 (truth p) := by
  cases p <;> rfl

-- A comparison of 64 bits is the comparison of the numbers.
theorem evalCompare_exact {r : IntType} (one : (IntType.mk 64 u).InRange a) (two : (IntType.mk 64 u).InRange b)
    (unsigned : operandTy.isUnsigned = u) (rule : op.rule = .comparison) :
    ∃ p, arithmetic true r op a b = .ok (truth p) ∧
      evalBinary op ty operandTy (BitVec.ofInt 64 a) (BitVec.ofInt 64 b) = .ok (BitVec.ofInt 64 (truth p)) := by
  obtain ⟨o,chosen⟩ : ∃ o, intCompare op u = some o := by cases op <;> simp [BinaryKind.rule] at rule <;> exact ⟨_,rfl⟩
  have agrees : arithmetic true r op a b = _ := compare_agrees (t := ⟨64,u⟩) chosen one two
  refine ⟨_,agrees,?_⟩
  rw [← hostTruth_of]
  subst unsigned
  cases op <;> cases chosen
  case eq => rfl
  case ne => rfl
  case lt => cases signed : operandTy.isUnsigned <;> simp [evalBinary,IntCompare.eval,signed]
  case le => cases signed : operandTy.isUnsigned <;> simp [evalBinary,IntCompare.eval,signed]

end

end SandboxStack.Cc
