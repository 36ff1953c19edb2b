import SandboxStack.IntegerTypes
import SandboxStack.Leb128

namespace SandboxStack.Leb128
open IntType

-- buf_sleb. The groups and what is left of the value keep its sign, and bit 6
-- of the last group is that sign.
def slebFrom : Nat → Int → List U8
  | 0,v => [BitVec.ofInt 8 (v % 128)]
  | rounds+1,v =>
    let c := v % 128
    let v := v / 128
    if (v = 0 ∧ c < 64) ∨ (v = -1 ∧ 64 ≤ c) then [BitVec.ofInt 8 c] else BitVec.ofInt 8 (c + 128) :: slebFrom rounds v

def sleb (v : Int) : List U8 := slebFrom v.natAbs v

-- What the readers in leb128.h keep: the value so far, and the last byte they read.
structure Reading (w : Nat) where
  value : BitVec w
  shift : Nat
  count : Nat
  byte : U8
  buffer : List U8

def readLoop {w : Nat} : Nat → Reading w → Reading w
  | 0,r => r
  | rounds+1,r =>
    match r.buffer with
    | [] => r
    | byte :: rest =>
      let r := ⟨r.value ||| (byte &&& 0x7F).setWidth w <<< r.shift,r.shift + 7,r.count + 1,byte,rest⟩
      if byte &&& 0x80 = 0 then r else readLoop rounds r

def started (w : Nat) (buffer : List U8) : Reading w := ⟨0,0,0,0,buffer⟩

-- The sign is extended from the last byte, where the width has bits left for it.
def Reading.extended {w : Nat} (r : Reading w) : BitVec w :=
  if r.shift < w ∧ r.byte &&& 0x40 ≠ 0 then r.value ||| BitVec.allOnes w <<< r.shift else r.value

def readUnsigned (w maxByteCount : Nat) (buffer : List U8) : BitVec w × Nat × List U8 :=
  let r := readLoop maxByteCount (started w buffer)
  (r.value,r.count,r.buffer)

def readSigned (w maxByteCount : Nat) (buffer : List U8) : BitVec w × Nat × List U8 :=
  let r := readLoop maxByteCount (started w buffer)
  (r.extended,r.count,r.buffer)

def int32LEB128MaxByteCount : Nat := 5
def int64LEB128MaxByteCount : Nat := 10

def leb128ReadU32 (buffer : List U8) : U32 × Nat × List U8 := readUnsigned 32 int32LEB128MaxByteCount buffer
def leb128ReadI32 (buffer : List U8) : U32 × Nat × List U8 := readSigned 32 int32LEB128MaxByteCount buffer
def leb128ReadU64 (buffer : List U8) : U64 × Nat × List U8 := readUnsigned 64 int64LEB128MaxByteCount buffer
def leb128ReadI64 (buffer : List U8) : U64 × Nat × List U8 := readSigned 64 int64LEB128MaxByteCount buffer

section
variable {w s : Nat} {z : Int}

-- A group joins the groups below it.
theorem groups_joined {p : Nat} (low : p < 2 ^ s) (x : BitVec w) :
    BitVec.ofNat w p ||| x <<< s = BitVec.ofNat w (p + x.toNat * 2 ^ s) := by
  have sum : p ||| x.toNat <<< s = p + x.toNat * 2 ^ s := by
    rw [Nat.or_comm,← Nat.shiftLeft_add_eq_or_of_lt low,Nat.shiftLeft_eq,Nat.add_comm]
  apply BitVec.eq_of_toNat_eq
  rw [BitVec.toNat_or,BitVec.toNat_shiftLeft,BitVec.toNat_ofNat,BitVec.toNat_ofNat,← Nat.or_mod_two_pow,sum]

theorem power_split (z : Int) (s k : Nat) : z % 2 ^ (s + k) = z % 2 ^ s + z / 2 ^ s % 2 ^ k * 2 ^ s := by
  have positive : (0 : Int) < 2 ^ s := Int.pow_pos (by decide)
  have nested := Int.ediv_ediv_of_nonneg (x := z) (y := 2 ^ s) (z := 2 ^ k) (Int.le_of_lt positive)
  have whole := Int.emod_def z (2 ^ (s + k))
  have high := Int.emod_def (z / 2 ^ s) (2 ^ k)
  rw [Int.pow_add,← nested] at whole
  rw [Int.pow_add,whole,high,Int.emod_def z (2 ^ s)]
  ring

theorem byte_parts (b : U8) : (b &&& 0x7F).toNat = b.toNat % 128 ∧ (b &&& 0x80 = 0 ↔ b.toNat < 128) ∧
    (b &&& 0x40 = 0 ↔ b.toNat % 128 < 64) := by
  revert b
  decide

theorem group_read {b : U8} (group : (b.toNat % 128 : Int) = z / 2 ^ s % 128) :
    BitVec.ofInt w (z % 2 ^ s) ||| (b &&& 0x7F).setWidth w <<< s = BitVec.ofInt w (z % 2 ^ (s + 7)) := by
  have positive : (0 : Int) < 2 ^ s := Int.pow_pos (by decide)
  have low := Int.emod_nonneg z (Int.ne_of_gt positive)
  have small := Int.emod_lt_of_pos z positive
  obtain ⟨p,part⟩ := Int.eq_ofNat_of_zero_le low
  have bounded : p < 2 ^ s := by
    rw [part] at small
    exact_mod_cast small
  obtain ⟨g,named⟩ : ∃ g, (b &&& 0x7F).toNat = g := ⟨_,rfl⟩
  have read : (g : Int) = z / 2 ^ s % 2 ^ 7 := by
    rw [← named,(byte_parts b).1]
    exact_mod_cast group
  rw [power_split,part,BitVec.ofInt_natCast,groups_joined bounded,BitVec.toNat_setWidth,named,← BitVec.ofInt_natCast,
    ofInt_congruent,← read]
  push_cast
  rw [Int.add_emod,Int.mul_emod,Int.emod_emod,← Int.mul_emod,← Int.add_emod]

theorem readLoop_last {r : Reading w} {b : U8} {rest : List U8} {rounds : Nat} (buffer : r.buffer = b :: rest)
    (value : r.value = BitVec.ofInt w (z % 2 ^ r.shift)) (group : (b.toNat % 128 : Int) = z / 2 ^ r.shift % 128)
    (last : b.toNat < 128) :
    readLoop (rounds + 1) r = ⟨BitVec.ofInt w (z % 2 ^ (r.shift + 7)),r.shift + 7,r.count + 1,b,rest⟩ := by
  rw [readLoop,buffer]
  simp only [(byte_parts b).2.1.mpr last,if_true,value,group_read group]

theorem readLoop_more {r : Reading w} {b : U8} {rest : List U8} {rounds : Nat} (buffer : r.buffer = b :: rest)
    (value : r.value = BitVec.ofInt w (z % 2 ^ r.shift)) (group : (b.toNat % 128 : Int) = z / 2 ^ r.shift % 128)
    (more : 128 ≤ b.toNat) :
    readLoop (rounds + 1) r =
      readLoop rounds ⟨BitVec.ofInt w (z % 2 ^ (r.shift + 7)),r.shift + 7,r.count + 1,b,rest⟩ := by
  have high : ¬b &&& 0x80 = 0 := by
    rw [(byte_parts b).2.1]
    omega
  rw [readLoop,buffer]
  simp only [high,if_false,value,group_read group]

theorem ofNat_byte {n : Nat} (small : n < 256) : (BitVec.ofNat 8 n).toNat = n := by
  rw [BitVec.toNat_ofNat,Nat.mod_eq_of_lt small]

theorem ulebFrom_last {fuel n : Nat} (small : n < 128) : ulebFrom fuel n = [BitVec.ofNat 8 n] := by
  cases fuel with
  | zero => rfl
  | succ fuel => rw [ulebFrom,if_pos (Nat.div_eq_of_lt small)]

theorem ulebFrom_more {fuel n : Nat} (large : 128 ≤ n) :
    ulebFrom (fuel + 1) n = BitVec.ofNat 8 (n % 128 + 128) :: ulebFrom fuel (n / 128) := by
  rw [ulebFrom,if_neg (by omega)]

theorem group_nat {n z s : Nat} (left : n = z / 2 ^ s) : (n % 128 : Int) = (z : Int) / 2 ^ s % 128 := by
  rw [left]
  push_cast
  rfl

theorem readLoop_uleb_last {rounds fuel n z : Nat} {r : Reading w} {suffix : List U8} (left : n = z / 2 ^ r.shift)
    (small : n < 128) (buffer : r.buffer = ulebFrom fuel n ++ suffix)
    (value : r.value = BitVec.ofInt w ((z : Int) % 2 ^ r.shift)) :
    ∃ shift byte, readLoop (rounds + 1) r =
      ⟨BitVec.ofInt w z,shift,r.count + (ulebFrom fuel n).length,byte,suffix⟩ := by
  rw [ulebFrom_last small] at buffer ⊢
  have byte := ofNat_byte (n := n) (by omega)
  have below : z < 2 ^ (r.shift + 7) := by
    rw [Nat.pow_add,Nat.mul_comm,← Nat.div_lt_iff_lt_mul (Nat.two_pow_pos _),← left]
    exact small
  have whole : (z : Int) % 2 ^ (r.shift + 7) = z := Int.emod_eq_of_lt (Int.natCast_nonneg z) (by exact_mod_cast below)
  refine ⟨r.shift + 7,BitVec.ofNat 8 n,?_⟩
  rw [readLoop_last buffer value (by rw [byte]; exact group_nat left) (by omega),whole]
  rfl

-- Each round takes seven bits off the value; the rounds left cover it.
theorem readLoop_uleb {rounds fuel n z : Nat} {r : Reading w} {suffix : List U8} (enough : n ≤ fuel)
    (left : n = z / 2 ^ r.shift) (covered : n < 2 ^ (7 * (rounds + 1))) (buffer : r.buffer = ulebFrom fuel n ++ suffix)
    (value : r.value = BitVec.ofInt w ((z : Int) % 2 ^ r.shift)) :
    ∃ shift byte, readLoop (rounds + 1) r =
      ⟨BitVec.ofInt w z,shift,r.count + (ulebFrom fuel n).length,byte,suffix⟩ := by
  induction rounds generalizing fuel n r with
  | zero => exact readLoop_uleb_last left covered buffer value
  | succ rounds ih =>
    rcases Nat.lt_or_ge n 128 with small | large
    · exact readLoop_uleb_last left small buffer value
    · obtain ⟨fuel,rfl⟩ : ∃ k, fuel = k + 1 := ⟨fuel - 1,by omega⟩
      rw [ulebFrom_more large] at buffer ⊢
      have byte := ofNat_byte (n := n % 128 + 128) (by omega)
      have group := group_nat left
      have next : n / 128 = z / 2 ^ (r.shift + 7) := by
        rw [left,Nat.div_div_eq_div_mul,Nat.pow_add]
      have fewer : n / 128 < 2 ^ (7 * (rounds + 1)) := by
        rw [Nat.mul_add,Nat.pow_add] at covered
        exact Nat.div_lt_of_lt_mul (by rwa [Nat.mul_comm] at covered)
      obtain ⟨shift,last,read⟩ := ih (by omega) next fewer
        (r := ⟨BitVec.ofInt w (z % 2 ^ (r.shift + 7)),r.shift + 7,r.count + 1,BitVec.ofNat 8 (n % 128 + 128),
          ulebFrom fuel (n / 128) ++ suffix⟩) rfl rfl
      refine ⟨shift,last,?_⟩
      have count : r.count + (BitVec.ofNat 8 (n % 128 + 128) :: ulebFrom fuel (n / 128)).length =
          r.count + 1 + (ulebFrom fuel (n / 128)).length := by
        rw [List.length_cons]
        omega
      rw [readLoop_more buffer value (by rw [byte]; omega) (by omega),count]
      exact read

theorem slebFrom_last {fuel : Nat} {n : Int} (enough : n.natAbs ≤ fuel) (low : -64 ≤ n) (high : n < 64) :
    slebFrom fuel n = [BitVec.ofInt 8 (n % 128)] := by
  cases fuel with
  | zero => rfl
  | succ fuel => rw [slebFrom,if_pos (by omega)]

theorem slebFrom_more {fuel : Nat} {n : Int} (large : n < -64 ∨ 64 ≤ n) :
    slebFrom (fuel + 1) n = BitVec.ofInt 8 (n % 128 + 128) :: slebFrom fuel (n / 128) := by
  rw [slebFrom,if_neg (by omega)]

theorem ofInt_byte {c : Int} (low : 0 ≤ c) (small : c < 256) : ((BitVec.ofInt 8 c).toNat : Int) = c := by
  rw [BitVec.toNat_ofInt]
  omega

-- What a signed value leaves: all its bits but the sign's copies, and the sign
-- in the last byte.
structure Signed (w : Nat) (z : Int) (r : Reading w) : Prop where
  value : r.value = BitVec.ofInt w (z % 2 ^ r.shift)
  low : -2 ^ r.shift ≤ z
  high : z < 2 ^ r.shift
  sign : r.byte &&& 0x40 = 0 ↔ 0 ≤ z

theorem readLoop_sleb_last {rounds fuel : Nat} {n : Int} {r : Reading w} {suffix : List U8} (enough : n.natAbs ≤ fuel)
    (left : n = z / 2 ^ r.shift) (low : -64 ≤ n) (high : n < 64) (buffer : r.buffer = slebFrom fuel n ++ suffix)
    (value : r.value = BitVec.ofInt w (z % 2 ^ r.shift)) :
    ∃ last, readLoop (rounds + 1) r = last ∧ Signed w z last ∧ last.count = r.count + (slebFrom fuel n).length ∧
      last.buffer = suffix := by
  rw [slebFrom_last enough low high] at buffer ⊢
  have byte := ofInt_byte (c := n % 128) (by omega) (by omega)
  have group : ((BitVec.ofInt 8 (n % 128)).toNat % 128 : Int) = z / 2 ^ r.shift % 128 := by
    rw [byte,left]
    omega
  have positive : (0 : Int) < 2 ^ r.shift := Int.pow_pos (by decide)
  have above := Int.ediv_mul_le z (Int.ne_of_gt positive)
  have below := Int.lt_ediv_add_one_mul_self z positive
  rw [← left] at above below
  have groups : (2 : Int) ^ (r.shift + 7) = 2 ^ r.shift * 128 := Int.pow_add _ _ _
  refine ⟨_,readLoop_last buffer value group (by omega),⟨rfl,?_,?_,?_⟩,rfl,rfl⟩
  · have least := Int.mul_le_mul_of_nonneg_right low (Int.le_of_lt positive)
    dsimp only
    omega
  · have most := Int.mul_le_mul_of_nonneg_right (Int.add_one_le_of_lt high) (Int.le_of_lt positive)
    dsimp only
    omega
  · have sign := Int.ediv_nonneg_iff_of_pos (a := z) positive
    rw [← left] at sign
    rw [(byte_parts _).2.2,← sign]
    dsimp only
    omega

theorem readLoop_sleb {rounds fuel : Nat} {n : Int} {r : Reading w} {suffix : List U8} (enough : n.natAbs ≤ fuel)
    (left : n = z / 2 ^ r.shift) (low : -(64 * 2 ^ (7 * rounds)) ≤ n) (high : n < 64 * 2 ^ (7 * rounds))
    (buffer : r.buffer = slebFrom fuel n ++ suffix) (value : r.value = BitVec.ofInt w (z % 2 ^ r.shift)) :
    ∃ last, readLoop (rounds + 1) r = last ∧ Signed w z last ∧ last.count = r.count + (slebFrom fuel n).length ∧
      last.buffer = suffix := by
  induction rounds generalizing fuel n r with
  | zero => exact readLoop_sleb_last enough left (by simpa using low) (by simpa using high) buffer value
  | succ rounds ih =>
    rcases Classical.em (-64 ≤ n ∧ n < 64) with small | large
    · exact readLoop_sleb_last enough left small.1 small.2 buffer value
    · obtain ⟨fuel,rfl⟩ : ∃ k, fuel = k + 1 := ⟨fuel - 1,by omega⟩
      rw [slebFrom_more (by omega)] at buffer ⊢
      have byte := ofInt_byte (c := n % 128 + 128) (by omega) (by omega)
      have group : ((BitVec.ofInt 8 (n % 128 + 128)).toNat % 128 : Int) = z / 2 ^ r.shift % 128 := by
        rw [byte,left]
        omega
      have next : n / 128 = z / 2 ^ (r.shift + 7) := by
        rw [left,Int.ediv_ediv_of_nonneg (Int.pow_nonneg (by decide)),Int.pow_add]
        rfl
      have groups : (2 : Int) ^ (7 * (rounds + 1)) = 2 ^ (7 * rounds) * 128 := Int.pow_add _ _ _
      rw [groups] at low high
      obtain ⟨last,read,signed,count,rest⟩ := ih (by omega) next (by omega) (by omega)
        (r := ⟨BitVec.ofInt w (z % 2 ^ (r.shift + 7)),r.shift + 7,r.count + 1,BitVec.ofInt 8 (n % 128 + 128),
          slebFrom fuel (n / 128) ++ suffix⟩) rfl rfl
      refine ⟨last,(readLoop_more buffer value group (by omega)).trans read,signed,?_,rest⟩
      rw [count,List.length_cons]
      dsimp only
      omega

theorem extended_exact {r : Reading w} (signed : Signed w z r) : r.extended = BitVec.ofInt w z := by
  have positive : (0 : Int) < 2 ^ r.shift := Int.pow_pos (by decide)
  have low := signed.low
  have high := signed.high
  unfold Reading.extended
  split
  · rename_i extend
    have negative : ¬0 ≤ z := fun plus => extend.2 (signed.sign.mpr plus)
    have wrapped : z % 2 ^ r.shift = z + 2 ^ r.shift := by
      rw [← Int.add_emod_right,Int.emod_eq_of_lt (by omega) (by omega)]
    obtain ⟨p,part⟩ := Int.eq_ofNat_of_zero_le (show 0 ≤ z + 2 ^ r.shift by omega)
    have bounded : p < 2 ^ r.shift := by
      have below : (p : Int) < 2 ^ r.shift := by omega
      exact_mod_cast below
    rw [signed.value,wrapped,part,BitVec.ofInt_natCast,groups_joined bounded,BitVec.toNat_allOnes,← BitVec.ofInt_natCast,
      ofInt_congruent]
    push_cast [Nat.two_pow_pos w]
    rw [← part,show z + 2 ^ r.shift + (2 ^ w - 1) * 2 ^ r.shift = z + 2 ^ w * 2 ^ r.shift by ring,
      Int.add_mul_emod_self_left]
  · rename_i plain
    rw [signed.value,ofInt_congruent]
    rcases Nat.lt_or_ge r.shift w with below | covered
    · have plus : 0 ≤ z := signed.sign.mp (Classical.not_not.mp fun sign => plain ⟨below,sign⟩)
      rw [Int.emod_eq_of_lt plus high]
    · exact Int.emod_emod_of_dvd z (pow_dvd_pow 2 covered)

end

section
variable {w : Nat} {suffix : List U8}

theorem readUnsigned_uleb {rounds : Nat} (v : BitVec w) (covered : w ≤ 7 * (rounds + 1)) :
    readUnsigned w (rounds + 1) (uleb v.toNat ++ suffix) = (v,(uleb v.toNat).length,suffix) := by
  have bounded : v.toNat < 2 ^ (7 * (rounds + 1)) := Nat.lt_of_lt_of_le v.isLt (Nat.pow_le_pow_right (by decide) covered)
  obtain ⟨shift,byte,read⟩ := readLoop_uleb (r := started w (uleb v.toNat ++ suffix)) (z := v.toNat)
    (Nat.le_refl _) (Nat.div_one _).symm bounded rfl (by simp [started])
  rw [readUnsigned,read]
  simp [started,uleb]

theorem readSigned_sleb {rounds : Nat} (v : BitVec w) (covered : w ≤ 7 * (rounds + 1)) :
    readSigned w (rounds + 1) (sleb v.toInt ++ suffix) = (v,(sleb v.toInt).length,suffix) := by
  have width : (2 : Int) ^ w ≤ 128 * 2 ^ (7 * rounds) := by
    have larger := pow_le_pow_right₀ (show (1 : Int) ≤ 2 by decide) covered
    rw [Nat.mul_add,Int.pow_add] at larger
    omega
  have low := @BitVec.le_two_mul_toInt w v
  have high := @BitVec.two_mul_toInt_lt w v
  obtain ⟨last,read,signed,count,rest⟩ := @readLoop_sleb w v.toInt rounds _ _
    (started w (sleb v.toInt ++ suffix)) suffix (Nat.le_refl _) (Int.ediv_one _).symm (by omega) (by omega) rfl
    (by simp [started])
  rw [readSigned,read,extended_exact signed,count,rest]
  simp [started,sleb]

end

theorem leb128_agreement (suffix : List U8) :
    (∀ v : U32, leb128ReadU32 (uleb v.toNat ++ suffix) = (v,(uleb v.toNat).length,suffix)) ∧
    (∀ v : U64, leb128ReadU64 (uleb v.toNat ++ suffix) = (v,(uleb v.toNat).length,suffix)) ∧
    (∀ v : U32, leb128ReadI32 (sleb v.toInt ++ suffix) = (v,(sleb v.toInt).length,suffix)) ∧
    ∀ v : U64, leb128ReadI64 (sleb v.toInt ++ suffix) = (v,(sleb v.toInt).length,suffix) := by
  refine ⟨?_,?_,?_,?_⟩
  · intro v
    exact readUnsigned_uleb v (by decide)
  · intro v
    exact readUnsigned_uleb v (by decide)
  · intro v
    exact readSigned_sleb v (by decide)
  · intro v
    exact readSigned_sleb v (by decide)

end SandboxStack.Leb128
