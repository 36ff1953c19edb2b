import SandboxStack.CInteger

namespace SandboxStack.LittleEndian

def leBytes : Nat → Nat → List U8
  | 0,_ => []
  | n+1,v => BitVec.ofNat 8 v :: leBytes n (v / 256)

def leValue : List U8 → Nat
  | [] => 0
  | b :: rest => b.toNat + 256 * leValue rest

@[simp] theorem leBytes_length (n v : Nat) : (leBytes n v).length = n := by
  induction n generalizing v with
  | zero => rfl
  | succ n ih => simp [leBytes,ih]

theorem leValue_leBytes (n v : Nat) : leValue (leBytes n v) = v % 256 ^ n := by
  induction n generalizing v with
  | zero => simp [leBytes,leValue,Nat.mod_one]
  | succ n ih =>
    have split := Nat.mod_mul (x := v) (a := 256) (b := 256 ^ n)
    simp only [leBytes,leValue,ih,BitVec.toNat_ofNat,Nat.pow_succ]
    rw [Nat.mul_comm (256 ^ n) 256,split]

theorem leBytes_leValue (bytes : List U8) : leBytes bytes.length (leValue bytes) = bytes := by
  induction bytes with
  | nil => rfl
  | cons b rest ih =>
    have small := b.isLt
    have low : BitVec.ofNat 8 (b.toNat + 256 * leValue rest) = b := by
      apply BitVec.eq_of_toNat_eq
      simp only [BitVec.toNat_ofNat]
      omega
    have high : (b.toNat + 256 * leValue rest) / 256 = leValue rest := by omega
    simp only [List.length_cons,leBytes,leValue,low,high,ih]

theorem leBytes_mod (n v : Nat) : leBytes n (v % 256 ^ n) = leBytes n v := by
  have back := leBytes_leValue (leBytes n v)
  rwa [leBytes_length,leValue_leBytes] at back

-- A C object of `n` bytes read as a bit pattern, and written back.
def ofBytes (n : Nat) (bytes : List U8) : BitVec (8 * n) := BitVec.ofNat (8 * n) (leValue bytes)
def toBytes {n : Nat} (v : BitVec (8 * n)) : List U8 := leBytes n v.toNat

@[simp] theorem toBytes_length {n : Nat} (v : BitVec (8 * n)) : (toBytes v).length = n := leBytes_length n _

theorem pow_bytes (n : Nat) : 256 ^ n = 2 ^ (8 * n) := by
  rw [Nat.pow_mul]

theorem ofBytes_toBytes {n : Nat} (v : BitVec (8 * n)) : ofBytes n (toBytes v) = v := by
  apply BitVec.eq_of_toNat_eq
  simp only [ofBytes,toBytes,BitVec.toNat_ofNat,leValue_leBytes,pow_bytes,Nat.mod_mod]
  exact Nat.mod_eq_of_lt v.isLt

end SandboxStack.LittleEndian
