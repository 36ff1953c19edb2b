import SandboxStack.CInteger

namespace SandboxStack.Leb128

-- Unsigned LEB128: seven bits a byte, the low ones first, and the high bit set
-- on every byte but the last. The first argument bounds the number of rounds.
def ulebFrom : Nat → Nat → List U8
  | 0,v => [BitVec.ofNat 8 v]
  | rounds+1,v => if v / 128 = 0 then [BitVec.ofNat 8 v] else BitVec.ofNat 8 (v % 128 + 128) :: ulebFrom rounds (v / 128)

def uleb (v : Nat) : List U8 := ulebFrom v v

def readUleb : List U8 → Option (Nat × List U8)
  | [] => none
  | b :: rest =>
    if b.toNat < 128 then some (b.toNat,rest)
    else do
      let (v,rest) ← readUleb rest
      return (b.toNat - 128 + 128 * v,rest)

theorem ulebFrom_roundtrip (rounds v : Nat) (suffix : List U8) (enough : v ≤ rounds) :
    readUleb (ulebFrom rounds v ++ suffix) = some (v,suffix) := by
  induction rounds generalizing v with
  | zero =>
    cases Nat.le_zero.mp enough
    rfl
  | succ rounds ih =>
    rw [ulebFrom]
    split
    · rename_i small
      have fits : v < 128 := by omega
      have byte : (BitVec.ofNat 8 v).toNat = v := by
        rw [BitVec.toNat_ofNat]
        omega
      simp [readUleb,byte,fits]
    · rename_i large
      have byte : (BitVec.ofNat 8 (v % 128 + 128)).toNat = v % 128 + 128 := by
        rw [BitVec.toNat_ofNat]
        omega
      have continued : ¬(v % 128 + 128 < 128) := by omega
      have rest := ih (v / 128) (by omega)
      simp only [List.cons_append,readUleb,byte,continued,if_false,rest]
      simp [Nat.mod_add_div]

theorem uleb_roundtrip (v : Nat) (suffix : List U8) : readUleb (uleb v ++ suffix) = some (v,suffix) :=
  ulebFrom_roundtrip v v suffix (Nat.le_refl v)

end SandboxStack.Leb128
