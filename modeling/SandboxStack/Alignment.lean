import Mathlib

namespace SandboxStack.Alignment

def roundUp (n a : Nat) : Nat := (n + a - 1) / a * a

section
variable {n a b : Nat}

theorem dvd_roundUp : a ∣ roundUp n a := Nat.dvd_mul_left a _

theorem le_roundUp (positive : 0 < a) : n ≤ roundUp n a := by
  have rest := Nat.mod_lt (n + a - 1) positive
  have whole := Nat.div_add_mod (n + a - 1) a
  unfold roundUp
  rw [Nat.mul_comm]
  omega

theorem roundUp_bound : roundUp n a ≤ n + a - 1 := Nat.div_mul_le_self _ _

-- The rounded number is the least multiple from `n` on.
theorem roundUp_least (positive : 0 < a) {m : Nat} (above : n ≤ m) (multiple : a ∣ m) : roundUp n a ≤ m := by
  obtain ⟨k,rfl⟩ := multiple
  unfold roundUp
  rw [Nat.mul_comm a k]
  apply Nat.mul_le_mul_right
  have small : n + a - 1 < a * (k + 1) := by
    rw [Nat.mul_add,Nat.mul_one]
    omega
  exact Nat.lt_succ_iff.mp (Nat.div_lt_of_lt_mul small)

theorem roundUp_shift (positive : 0 < a) (multiple : a ∣ b) : roundUp (b + n) a = b + roundUp n a := by
  obtain ⟨k,rfl⟩ := multiple
  unfold roundUp
  rw [show a * k + n + a - 1 = n + a - 1 + a * k by omega,Nat.add_mul_div_left _ _ positive,Nat.add_mul,
    Nat.mul_comm k a,Nat.add_comm]

end

-- An alignment that passes the test `a & (a-1)` divides every larger one.
theorem power_divides {a k : Nat} (positive : 0 < a) (power : a &&& (a - 1) = 0) (bound : a ≤ 2 ^ k) : a ∣ 2 ^ k := by
  obtain ⟨i,rfl⟩ := (Nat.and_sub_one_eq_zero_iff_isPowerOfTwo (Nat.ne_of_gt positive)).mp power
  exact Nat.pow_dvd_pow 2 ((Nat.pow_le_pow_iff_right (by decide)).mp bound)

end SandboxStack.Alignment
