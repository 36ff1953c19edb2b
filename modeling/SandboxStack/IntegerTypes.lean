import SandboxStack.CInteger

namespace SandboxStack

-- A C integer type: its values are those of `bits` bits, two's complement if signed.
structure IntType where
  bits : Nat
  unsigned : Bool
  deriving DecidableEq, Repr

namespace IntType

-- The value of the type congruent to `z` modulo 2^bits.
def wrap (t : IntType) (z : Int) : Int := if t.unsigned then z % 2 ^ t.bits else z.bmod (2 ^ t.bits)

def value (t : IntType) {w : Nat} (b : BitVec w) : Int := if t.unsigned then b.toNat else b.toInt

def InRange (t : IntType) (z : Int) : Prop := t.wrap z = z

instance (t : IntType) (z : Int) : Decidable (t.InRange z) := inferInstanceAs (Decidable (t.wrap z = z))

theorem two_pow_pos (n : Nat) : (0 : Int) < 2 ^ n := Int.pow_pos (by decide)

section
variable {t : IntType} {z a b : Int}

theorem wrap_congruent : t.wrap z % 2 ^ t.bits = z % 2 ^ t.bits := by
  unfold wrap
  split
  · exact Int.emod_emod_of_dvd _ (Int.dvd_refl _)
  · have same := Int.bmod_emod (x := z) (m := 2 ^ t.bits)
    push_cast at same
    exact same

theorem wrap_eq_of_congruent (same : a % 2 ^ t.bits = b % 2 ^ t.bits) : t.wrap a = t.wrap b := by
  unfold wrap
  split
  · exact same
  · have cast : ((2 ^ t.bits : Nat) : Int) = 2 ^ t.bits := by push_cast; rfl
    rw [Int.bmod_def,Int.bmod_def,cast,same]

theorem wrap_range : t.InRange (t.wrap z) := wrap_eq_of_congruent wrap_congruent

theorem ofInt_congruent {w : Nat} : BitVec.ofInt w a = BitVec.ofInt w b ↔ a % 2 ^ w = b % 2 ^ w := by
  constructor
  · intro equal
    have values := congrArg BitVec.toNat equal
    rw [BitVec.toNat_ofInt,BitVec.toNat_ofInt] at values
    have positive := two_pow_pos w
    have one := Int.emod_nonneg a (Int.ne_of_gt positive)
    have two := Int.emod_nonneg b (Int.ne_of_gt positive)
    push_cast at values
    omega
  · intro same
    apply BitVec.eq_of_toNat_eq
    rw [BitVec.toNat_ofInt,BitVec.toNat_ofInt]
    push_cast
    rw [same]

theorem ofInt_wrap : BitVec.ofInt t.bits (t.wrap z) = BitVec.ofInt t.bits z :=
  ofInt_congruent.mpr wrap_congruent

theorem value_ofInt : t.value (BitVec.ofInt t.bits z) = t.wrap z := by
  unfold value wrap
  split
  · rw [BitVec.toNat_ofInt]
    have positive := two_pow_pos t.bits
    have nonneg := Int.emod_nonneg z (Int.ne_of_gt positive)
    push_cast
    omega
  · exact BitVec.toInt_ofInt z

theorem ofInt_value {b : BitVec t.bits} : BitVec.ofInt t.bits (t.value b) = b := by
  unfold value
  split
  · rw [BitVec.ofInt_natCast,BitVec.ofNat_toNat,BitVec.setWidth_eq]
  · exact BitVec.ofInt_toInt

theorem value_range {b : BitVec t.bits} : t.InRange (t.value b) := by
  unfold InRange
  rw [← value_ofInt,ofInt_value]

-- Bounds of a value, by signedness.
theorem range_unsigned (unsigned : t.unsigned = true) : t.InRange z ↔ 0 ≤ z ∧ z < 2 ^ t.bits := by
  have positive := two_pow_pos t.bits
  unfold InRange wrap
  rw [if_pos unsigned]
  constructor
  · intro same
    exact ⟨same ▸ Int.emod_nonneg z (Int.ne_of_gt positive),same ▸ Int.emod_lt_of_pos z positive⟩
  · rintro ⟨low,high⟩
    exact Int.emod_eq_of_lt low high

theorem range_signed (signed : t.unsigned = false) (sized : 0 < t.bits) :
    t.InRange z ↔ -2 ^ (t.bits - 1) ≤ z ∧ z < 2 ^ (t.bits - 1) := by
  obtain ⟨n,bits⟩ : ∃ n, t.bits = n + 1 := ⟨t.bits - 1,by omega⟩
  have double : (2 : Int) ^ t.bits = 2 * 2 ^ (t.bits - 1) := by
    rw [bits,Int.pow_succ,Int.mul_comm]; rfl
  have cast : ((2 ^ t.bits : Nat) : Int) = 2 ^ t.bits := by push_cast; rfl
  have positive := two_pow_pos (t.bits - 1)
  unfold InRange wrap
  rw [if_neg (by simp [signed])]
  constructor
  · intro same
    have low := Int.le_bmod (x := z) (m := 2 ^ t.bits) (Nat.two_pow_pos _)
    have high := Int.bmod_lt (x := z) (m := 2 ^ t.bits) (Nat.two_pow_pos _)
    rw [same,cast,double] at low high
    constructor <;> omega
  · rintro ⟨low,high⟩
    exact Int.bmod_eq_of_le (by rw [cast,double]; omega) (by rw [cast,double]; omega)

end

section
variable {t : IntType} {a b : Int}

theorem value_of (range : t.InRange a) : t.value (BitVec.ofInt t.bits a) = a := by
  rw [value_ofInt]
  exact range

theorem toNat_of (unsigned : t.unsigned = true) (range : t.InRange a) : ((BitVec.ofInt t.bits a).toNat : Int) = a := by
  have value := value_of range
  unfold IntType.value at value
  rwa [if_pos unsigned] at value

theorem toInt_of (signed : t.unsigned = false) (range : t.InRange a) : (BitVec.ofInt t.bits a).toInt = a := by
  have value := value_of range
  unfold IntType.value at value
  rwa [if_neg (by simp [signed])] at value

theorem ofInt_injective (one : t.InRange a) (two : t.InRange b) :
    BitVec.ofInt t.bits a = BitVec.ofInt t.bits b ↔ a = b := by
  constructor
  · intro same
    rw [← value_of one,← value_of two,same]
  · rintro rfl
    rfl

theorem zero_range : t.InRange 0 := by
  unfold InRange wrap
  split <;> simp

theorem ofInt_zero_iff (range : t.InRange a) : BitVec.ofInt t.bits a = 0 ↔ a = 0 := by
  rw [← ofInt_injective range zero_range]
  rfl

theorem ofInt_sub (w : Nat) : BitVec.ofInt w (a - b) = BitVec.ofInt w a - BitVec.ofInt w b := by
  rw [Int.sub_eq_add_neg,BitVec.ofInt_add,BitVec.ofInt_neg,BitVec.sub_eq_add_neg]

theorem ofInt_not (w : Nat) : BitVec.ofInt w (-a - 1) = BitVec.ofInt w a ^^^ -1 := by
  have ones : (-1 : BitVec w) = BitVec.allOnes w := BitVec.neg_one_eq_allOnes
  have negated := BitVec.not_neg (-BitVec.ofInt w a)
  rw [BitVec.neg_neg] at negated
  rw [ofInt_sub,BitVec.ofInt_neg,ones,BitVec.xor_allOnes,negated]
  rfl

theorem ofInt_shift (w n : Nat) : BitVec.ofInt w (a * 2 ^ n) = BitVec.ofInt w a <<< n := by
  rw [BitVec.ofInt_mul,BitVec.shiftLeft_eq_mul_twoPow]
  congr 1
  apply BitVec.eq_of_toNat_eq
  rw [BitVec.toNat_ofInt,BitVec.toNat_twoPow]
  norm_cast

-- An unsigned value is the number its bits spell.
theorem unsigned_parts (unsigned : t.unsigned = true) (range : t.InRange a) :
    ∃ x : BitVec t.bits, BitVec.ofInt t.bits a = x ∧ a = x.toNat :=
  ⟨BitVec.ofInt t.bits a,rfl,(toNat_of unsigned range).symm⟩

theorem ofInt_nat {w n : Nat} {x : BitVec w} (same : n = x.toNat) : BitVec.ofInt w n = x := by
  rw [same,BitVec.ofInt_natCast,BitVec.ofNat_toNat,BitVec.setWidth_eq]

theorem ofInt_udiv (unsigned : t.unsigned = true) (one : t.InRange a) (two : t.InRange b) :
    BitVec.ofInt t.bits (a.tdiv b) = BitVec.ofInt t.bits a / BitVec.ofInt t.bits b := by
  have low := ((range_unsigned unsigned).mp one).1
  obtain ⟨x,left,rfl⟩ := unsigned_parts unsigned one
  obtain ⟨y,right,rfl⟩ := unsigned_parts unsigned two
  rw [left,right,Int.tdiv_eq_ediv_of_nonneg low,← Int.natCast_ediv]
  exact ofInt_nat BitVec.toNat_udiv.symm

theorem ofInt_umod (unsigned : t.unsigned = true) (one : t.InRange a) (two : t.InRange b) :
    BitVec.ofInt t.bits (a.tmod b) = BitVec.ofInt t.bits a % BitVec.ofInt t.bits b := by
  have low := ((range_unsigned unsigned).mp one).1
  obtain ⟨x,left,rfl⟩ := unsigned_parts unsigned one
  obtain ⟨y,right,rfl⟩ := unsigned_parts unsigned two
  rw [left,right,Int.tmod_eq_emod_of_nonneg low,← Int.natCast_emod]
  exact ofInt_nat BitVec.toNat_umod.symm

theorem ofInt_sdiv (signed : t.unsigned = false) (one : t.InRange a) (two : t.InRange b) :
    BitVec.ofInt t.bits (a.tdiv b) = (BitVec.ofInt t.bits a).sdiv (BitVec.ofInt t.bits b) := by
  apply BitVec.eq_of_toInt_eq
  rw [BitVec.toInt_sdiv,toInt_of signed one,toInt_of signed two,BitVec.toInt_ofInt]

theorem ofInt_srem (signed : t.unsigned = false) (one : t.InRange a) (two : t.InRange b) :
    BitVec.ofInt t.bits (a.tmod b) = (BitVec.ofInt t.bits a).srem (BitVec.ofInt t.bits b) := by
  apply BitVec.eq_of_toInt_eq
  rw [BitVec.toInt_srem,toInt_of signed one,toInt_of signed two,BitVec.toInt_ofInt]
  have range := (BitVec.ofInt t.bits a).srem (BitVec.ofInt t.bits b)
  have same := BitVec.toInt_srem (BitVec.ofInt t.bits a) (BitVec.ofInt t.bits b)
  rw [toInt_of signed one,toInt_of signed two] at same
  rw [← same]
  exact BitVec.toInt_bmod_cancel _

theorem ofInt_ushift (unsigned : t.unsigned = true) (one : t.InRange a) (n : Nat) :
    BitVec.ofInt t.bits (a / 2 ^ n) = BitVec.ofInt t.bits a >>> n := by
  obtain ⟨x,left,rfl⟩ := unsigned_parts unsigned one
  have power : ((x.toNat : Int) / 2 ^ n) = ((x.toNat / 2 ^ n : Nat) : Int) := by norm_cast
  rw [left,power]
  exact ofInt_nat (by rw [BitVec.toNat_ushiftRight,Nat.shiftRight_eq_div_pow])

theorem ofInt_sshift (signed : t.unsigned = false) (one : t.InRange a) (n : Nat) :
    BitVec.ofInt t.bits (a / 2 ^ n) = (BitVec.ofInt t.bits a).sshiftRight n := by
  have shifted := BitVec.toInt_sshiftRight (x := BitVec.ofInt t.bits a) (n := n)
  rw [toInt_of signed one,Int.shiftRight_eq_div_pow] at shifted
  rw [← BitVec.ofInt_toInt (x := (BitVec.ofInt t.bits a).sshiftRight n),shifted]
  norm_cast

theorem lt_unsigned (unsigned : t.unsigned = true) (one : t.InRange a) (two : t.InRange b) :
    (BitVec.ofInt t.bits a).ult (BitVec.ofInt t.bits b) = decide (a < b) := by
  have left := toNat_of unsigned one
  have right := toNat_of unsigned two
  rw [BitVec.ult_eq_decide]
  congr 1
  apply propext
  omega

theorem le_unsigned (unsigned : t.unsigned = true) (one : t.InRange a) (two : t.InRange b) :
    (BitVec.ofInt t.bits a).ule (BitVec.ofInt t.bits b) = decide (a ≤ b) := by
  have left := toNat_of unsigned one
  have right := toNat_of unsigned two
  rw [BitVec.ule_eq_decide]
  congr 1
  apply propext
  omega

theorem lt_signed (signed : t.unsigned = false) (one : t.InRange a) (two : t.InRange b) :
    (BitVec.ofInt t.bits a).slt (BitVec.ofInt t.bits b) = decide (a < b) := by
  rw [BitVec.slt_eq_decide,toInt_of signed one,toInt_of signed two]

theorem le_signed (signed : t.unsigned = false) (one : t.InRange a) (two : t.InRange b) :
    (BitVec.ofInt t.bits a).sle (BitVec.ofInt t.bits b) = decide (a ≤ b) := by
  rw [BitVec.sle_eq_decide,toInt_of signed one,toInt_of signed two]

theorem truncated_range (unsigned : t.unsigned = true) (one : t.InRange a) (two : t.InRange b) :
    t.InRange (a.tdiv b) ∧ t.InRange (a.tmod b) := by
  obtain ⟨low,high⟩ := (range_unsigned unsigned).mp one
  obtain ⟨low',high'⟩ := (range_unsigned unsigned).mp two
  rw [range_unsigned unsigned,range_unsigned unsigned,Int.tdiv_eq_ediv_of_nonneg low,Int.tmod_eq_emod_of_nonneg low]
  refine ⟨⟨Int.ediv_nonneg low low',?_⟩,?_,?_⟩
  · exact Int.lt_of_le_of_lt (Int.ediv_le_self b low) high
  · rcases Int.lt_or_eq_of_le low' with positive | zero
    · exact Int.emod_nonneg a (by omega)
    · rw [← zero,Int.emod_zero]; exact low
  · rcases Int.lt_or_eq_of_le low' with positive | zero
    · exact Int.lt_trans (Int.emod_lt_of_pos a positive) high'
    · rw [← zero,Int.emod_zero]; exact high

theorem tmod_range (one : t.InRange a) (two : t.InRange b) : t.InRange (a.tmod b) := by
  cases unsigned : t.unsigned with
  | true => exact (truncated_range unsigned one two).2
  | false =>
    have same := ofInt_srem unsigned one two
    have exact := BitVec.toInt_srem (BitVec.ofInt t.bits a) (BitVec.ofInt t.bits b)
    rw [toInt_of unsigned one,toInt_of unsigned two,← same,BitVec.toInt_ofInt] at exact
    unfold InRange wrap
    rw [if_neg (by simp [unsigned])]
    exact exact

theorem shift_range (sized : 0 < t.bits) (one : t.InRange a) (n : Nat) : t.InRange (a / 2 ^ n) := by
  have power := two_pow_pos n
  cases unsigned : t.unsigned with
  | true =>
    rw [range_unsigned unsigned] at one ⊢
    exact ⟨Int.ediv_nonneg one.1 (Int.le_of_lt power),Int.lt_of_le_of_lt (Int.ediv_le_self _ one.1) one.2⟩
  | false =>
    rw [range_signed unsigned sized] at one ⊢
    constructor
    · rw [Int.le_ediv_iff_mul_le power]
      have larger : (1 : Int) ≤ 2 ^ n := power
      have half := two_pow_pos (t.bits - 1)
      have grows : (2 ^ (t.bits - 1) : Int) ≤ 2 ^ (t.bits - 1) * 2 ^ n :=
        le_mul_of_one_le_right (Int.le_of_lt half) larger
      rw [Int.neg_mul]
      omega
    · rcases Int.lt_or_le a 0 with negative | nonneg
      · exact Int.lt_trans (Int.ediv_neg_of_neg_of_pos negative power) (two_pow_pos _)
      · exact Int.lt_of_le_of_lt (Int.ediv_le_self _ nonneg) one.2

-- The one signed quotient that the type cannot hold.
theorem quotient_overflow (signed : t.unsigned = false) (sized : 0 < t.bits) (one : t.InRange a) (two : t.InRange b) :
    ¬t.InRange (a.tdiv b) ↔ BitVec.ofInt t.bits a = BitVec.intMin t.bits ∧ BitVec.ofInt t.bits b = -1 := by
  have back : ∀ {z : Int} {v : BitVec t.bits}, t.InRange z → (BitVec.ofInt t.bits z = v ↔ z = v.toInt) := by
    intro z v range
    constructor
    · rintro rfl
      exact (toInt_of signed range).symm
    · rintro rfl
      exact BitVec.ofInt_toInt
  have least : (BitVec.intMin t.bits).toInt = -2 ^ (t.bits - 1) := BitVec.toInt_intMin_of_pos sized
  constructor
  · intro overflow
    by_contra other
    have exact := BitVec.toInt_sdiv_of_ne_or_ne (BitVec.ofInt t.bits a) (BitVec.ofInt t.bits b) (by
      rw [not_and_or] at other
      exact other)
    rw [toInt_of signed one,toInt_of signed two,← ofInt_sdiv signed one two,BitVec.toInt_ofInt] at exact
    apply overflow
    unfold InRange wrap
    rw [if_neg (by simp [signed])]
    exact exact
  · rintro ⟨minimum,minus⟩ range
    rw [back one,least] at minimum
    have last : BitVec.ofInt t.bits (-1) = (-1 : BitVec t.bits) := by
      rw [BitVec.ofInt_neg]; rfl
    have negative : t.InRange (-1) := by
      rw [range_signed signed sized]
      have half := two_pow_pos (t.bits - 1)
      omega
    rw [← last,ofInt_injective two negative] at minus
    rw [minimum,minus,Int.tdiv_neg,Int.tdiv_one,range_signed signed sized] at range
    omega

theorem signExtend_of (signed : t.unsigned = false) (one : t.InRange a) (w : Nat) :
    (BitVec.ofInt t.bits a).signExtend w = BitVec.ofInt w a := by
  unfold BitVec.signExtend
  rw [toInt_of signed one]

theorem zeroExtend_of (unsigned : t.unsigned = true) (one : t.InRange a) (w : Nat) :
    (BitVec.ofInt t.bits a).setWidth w = BitVec.ofInt w a := by
  obtain ⟨x,same,rfl⟩ := unsigned_parts unsigned one
  rw [same,BitVec.ofInt_natCast,BitVec.ofNat_toNat]

theorem truncate_of {v w : Nat} (narrower : w ≤ v) : (BitVec.ofInt v a).setWidth w = BitVec.ofInt w a := by
  apply BitVec.eq_of_toNat_eq
  rw [BitVec.toNat_setWidth,BitVec.toNat_ofInt,BitVec.toNat_ofInt]
  have divides : ((2 ^ w : Nat) : Int) ∣ ((2 ^ v : Nat) : Int) := by
    exact_mod_cast Nat.pow_dvd_pow 2 narrower
  have positive : (0 : Int) < ((2 ^ v : Nat) : Int) := by exact_mod_cast Nat.two_pow_pos v
  have nonneg := Int.emod_nonneg a (Int.ne_of_gt positive)
  have same := Int.emod_emod_of_dvd a divides
  rw [← same]
  generalize a % ((2 ^ v : Nat) : Int) = r at nonneg
  obtain ⟨n,rfl⟩ := Int.eq_ofNat_of_zero_le nonneg
  norm_cast

theorem count_exact {w : Nat} (low : 0 ≤ b) (high : b < w) : (BitVec.ofInt w b).toNat % w = b.toNat := by
  obtain ⟨n,rfl⟩ := Int.eq_ofNat_of_zero_le low
  have below : n < w := by omega
  have power : n < 2 ^ w := Nat.lt_trans below Nat.lt_two_pow_self
  rw [BitVec.ofInt_natCast,BitVec.toNat_ofNat,Nat.mod_eq_of_lt power,Nat.mod_eq_of_lt below]
  rfl

end

end IntType
end SandboxStack
