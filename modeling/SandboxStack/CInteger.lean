import Mathlib

namespace SandboxStack

-- Fixed-width C integers are bit patterns; signedness lives in the operation.
abbrev U8 := BitVec 8
abbrev U16 := BitVec 16
abbrev U32 := BitVec 32
abbrev U64 := BitVec 64

namespace CInteger

-- `(U64)addr + n > limit`: the addition is made after the widening.
def exceeds (addr n limit : U32) : Bool :=
  decide (addr.setWidth 64 + n.setWidth 64 > limit.setWidth 64)

theorem wide_sum (addr n : U32) : (addr.setWidth 64 + n.setWidth 64).toNat = addr.toNat + n.toNat := by
  have first := addr.isLt
  have second := n.isLt
  simp only [BitVec.toNat_add,BitVec.toNat_setWidth]
  omega

theorem exceeds_exact (addr n limit : U32) :
    exceeds addr n limit = true ↔ limit.toNat < addr.toNat + n.toNat := by
  have small := limit.isLt
  have narrow : (limit.setWidth 64).toNat = limit.toNat := by
    simp only [BitVec.toNat_setWidth]; omega
  simp only [exceeds,decide_eq_true_eq,GT.gt,BitVec.lt_def,wide_sum,narrow]

theorem exceeds_false (addr n limit : U32) :
    exceeds addr n limit = false ↔ addr.toNat + n.toNat ≤ limit.toNat := by
  rw [← Bool.not_eq_true,exceeds_exact,Nat.not_lt]

theorem add_exact {a b : U32} (fits : a.toNat + b.toNat < 2 ^ 32) : (a + b).toNat = a.toNat + b.toNat := by
  rw [BitVec.toNat_add,Nat.mod_eq_of_lt fits]

-- The idiom `sum < a` detects exactly the wrapped sums.
theorem add_wraps {a b : U32} : a + b < a ↔ 2 ^ 32 ≤ a.toNat + b.toNat := by
  have first := a.isLt
  have second := b.isLt
  rw [BitVec.lt_def,BitVec.toNat_add]
  omega

theorem mul_exact {a b : U32} (fits : a.toNat * b.toNat < 2 ^ 32) : (a * b).toNat = a.toNat * b.toNat := by
  rw [BitVec.toNat_mul,Nat.mod_eq_of_lt fits]

end CInteger
end SandboxStack
