import SandboxStack.IntegerTypes
import SandboxStack.RuntimeMemory

namespace SandboxStack.IntegerHelpers
open SandboxStack.Runtime

-- A C expression has a value, or it traps, or C leaves it undefined.
inductive Result (α : Type) where
  | value (a : α)
  | trap (reason : Trap)
  | undefined
  deriving DecidableEq, Repr

def Result.both {α : Type} (f : α → α → α) : Result α → Result α → Result α
  | .value a,.value b => .value (f a b)
  | .trap reason,_ | .value _,.trap reason => .trap reason
  | _,_ => .undefined

section
variable {w : Nat}

-- The operators of C. A shift is by less than the width, a quotient fits its type.
def shiftLeft (x : BitVec w) (n : Nat) : Result (BitVec w) := if n < w then .value (x <<< n) else .undefined
def shiftRight (x : BitVec w) (n : Nat) : Result (BitVec w) := if n < w then .value (x >>> n) else .undefined

def signed (w : Nat) : IntType := ⟨w,false⟩

def quotient (x y : BitVec w) : Result (BitVec w) :=
  if y ≠ 0 ∧ (signed w).InRange (x.toInt.tdiv y.toInt) then .value (BitVec.ofInt w (x.toInt.tdiv y.toInt))
  else .undefined

def remainder (x y : BitVec w) : Result (BitVec w) :=
  if y ≠ 0 ∧ (signed w).InRange (x.toInt.tdiv y.toInt) then .value (BitVec.ofInt w (x.toInt.tmod y.toInt))
  else .undefined

def unsignedQuotient (x y : BitVec w) : Result (BitVec w) := if y = 0 then .undefined else .value (x / y)
def unsignedRemainder (x y : BitVec w) : Result (BitVec w) := if y = 0 then .undefined else .value (x % y)

-- The macros.
def DIV_S (least x y : BitVec w) : Result (BitVec w) :=
  if y = 0 then .trap .divByZero else if x = least ∧ y = -1 then .trap .intOverflow else quotient x y

def REM_S (least x y : BitVec w) : Result (BitVec w) :=
  if y = 0 then .trap .divByZero else if x = least ∧ y = -1 then .value 0 else remainder x y

def DIVREM_U (op : BitVec w → BitVec w → Result (BitVec w)) (x y : BitVec w) : Result (BitVec w) :=
  if y = 0 then .trap .divByZero else op x y

def DIV_U (x y : BitVec w) : Result (BitVec w) := DIVREM_U unsignedQuotient x y
def REM_U (x y : BitVec w) : Result (BitVec w) := DIVREM_U unsignedRemainder x y

def ROTL (x y mask : BitVec w) : Result (BitVec w) :=
  (shiftLeft x (y &&& mask).toNat).both (· ||| ·) (shiftRight x ((mask - y + 1) &&& mask).toNat)

def ROTR (x y mask : BitVec w) : Result (BitVec w) :=
  (shiftRight x (y &&& mask).toNat).both (· ||| ·) (shiftLeft x ((mask - y + 1) &&& mask).toNat)

-- `while (!(x & one)) { x = move x; n++; }`; the rounds bound it, `none` is too few.
def countLoop (one : BitVec w) (move : BitVec w → BitVec w) : Nat → BitVec w → BitVec w → Option (BitVec w)
  | 0,_,_ => none
  | rounds+1,x,n => if x &&& one = 0 then countLoop one move rounds (move x) (n + 1) else some n

end

def INT32_MIN : U32 := BitVec.ofInt 32 (-2147483647 - 1)
def INT64_MIN : U64 := BitVec.ofInt 64 (-9223372036854775807 - 1)

def I32_DIV_S (x y : U32) : Result U32 := DIV_S INT32_MIN x y
def I64_DIV_S (x y : U64) : Result U64 := DIV_S INT64_MIN x y
def I32_REM_S (x y : U32) : Result U32 := REM_S INT32_MIN x y
def I64_REM_S (x y : U64) : Result U64 := REM_S INT64_MIN x y
def I32_ROTL (x y : U32) : Result U32 := ROTL x y 31
def I64_ROTL (x y : U64) : Result U64 := ROTL x y 63
def I32_ROTR (x y : U32) : Result U32 := ROTR x y 31
def I64_ROTR (x y : U64) : Result U64 := ROTR x y 63

def I32_POPCNT (x : U32) : U32 :=
  let x := x - ((x >>> 1) &&& 0x55555555)
  let x := ((x >>> 2) &&& 0x33333333) + (x &&& 0x33333333)
  let x := ((x >>> 4) + x) &&& 0x0F0F0F0F
  (x * 0x01010101) >>> 24

def I64_POPCNT (x : U64) : U64 :=
  let x := x - ((x >>> 1) &&& 0x5555555555555555)
  let x := ((x >>> 2) &&& 0x3333333333333333) + (x &&& 0x3333333333333333)
  let x := ((x >>> 4) + x) &&& 0x0f0f0f0f0f0f0f0f
  (x * 0x0101010101010101) >>> 56

def I32_CLZ (rounds : Nat) (x : U32) : Option U32 :=
  if x = 0 then some 32 else countLoop 0x80000000 (· <<< 1) rounds x 0
def I64_CLZ (rounds : Nat) (x : U64) : Option U64 :=
  if x = 0 then some 64 else countLoop 0x8000000000000000 (· <<< 1) rounds x 0
def I32_CTZ (rounds : Nat) (x : U32) : Option U32 := if x = 0 then some 32 else countLoop 1 (· >>> 1) rounds x 0
def I64_CTZ (rounds : Nat) (x : U64) : Option U64 := if x = 0 then some 64 else countLoop 1 (· >>> 1) rounds x 0

section
variable {w : Nat}

-- What the WebAssembly specification says of them.
def idivS (x y : BitVec w) : Result (BitVec w) :=
  if y.toInt = 0 then .trap .divByZero
  else if x.toInt.tdiv y.toInt = 2 ^ (w - 1) then .trap .intOverflow
  else .value (BitVec.ofInt w (x.toInt.tdiv y.toInt))

def iremS (x y : BitVec w) : Result (BitVec w) :=
  if y.toInt = 0 then .trap .divByZero else .value (BitVec.ofInt w (x.toInt - y.toInt * x.toInt.tdiv y.toInt))

def idivU (x y : BitVec w) : Result (BitVec w) :=
  if y.toNat = 0 then .trap .divByZero else .value (BitVec.ofNat w (x.toNat / y.toNat))

def iremU (x y : BitVec w) : Result (BitVec w) :=
  if y.toNat = 0 then .trap .divByZero else .value (BitVec.ofNat w (x.toNat - y.toNat * (x.toNat / y.toNat)))

-- The bits of a number, the highest first.
def bits (x : BitVec w) : List Bool := List.ofFn fun i : Fin w => x.getMsbD i

def zerosBefore (bs : List Bool) : Nat := (bs.takeWhile fun b => !b).length

structure Helpers (w : Nat) where
  divS : BitVec w → BitVec w → Result (BitVec w)
  remS : BitVec w → BitVec w → Result (BitVec w)
  divU : BitVec w → BitVec w → Result (BitVec w)
  remU : BitVec w → BitVec w → Result (BitVec w)
  rotl : BitVec w → BitVec w → Result (BitVec w)
  rotr : BitVec w → BitVec w → Result (BitVec w)
  popcnt : BitVec w → BitVec w
  clz : Nat → BitVec w → Option (BitVec w)
  ctz : Nat → BitVec w → Option (BitVec w)

structure Specified (h : Helpers w) : Prop where
  divS : ∀ x y, h.divS x y = idivS x y
  remS : ∀ x y, h.remS x y = iremS x y
  divU : ∀ x y, h.divU x y = idivU x y
  remU : ∀ x y, h.remU x y = iremU x y
  rotl : ∀ x y, ∃ r, h.rotl x y = .value r ∧ bits r = (bits x).rotate (y.toNat % w)
  rotr : ∀ x y, ∃ r, h.rotr x y = .value r ∧ (bits r).rotate (y.toNat % w) = bits x
  popcnt : ∀ x, (h.popcnt x).toNat = (bits x).count true
  clz : ∀ x rounds, w ≤ rounds → ∃ n, h.clz rounds x = some n ∧ n.toNat = zerosBefore (bits x)
  ctz : ∀ x rounds, w ≤ rounds → ∃ n, h.ctz rounds x = some n ∧ n.toNat = zerosBefore (bits x).reverse

end

def i32 : Helpers 32 :=
  ⟨I32_DIV_S,I32_REM_S,DIV_U,REM_U,I32_ROTL,I32_ROTR,I32_POPCNT,I32_CLZ,I32_CTZ⟩

def i64 : Helpers 64 :=
  ⟨I64_DIV_S,I64_REM_S,DIV_U,REM_U,I64_ROTL,I64_ROTR,I64_POPCNT,I64_CLZ,I64_CTZ⟩

section
variable {w : Nat} {x y : BitVec w}

theorem zero_toInt : y.toInt = 0 ↔ y = 0 := by
  rw [← BitVec.toInt_inj]
  simp

theorem toInt_ranged (sized : 0 < w) (x : BitVec w) : (signed w).InRange x.toInt := by
  have low := @BitVec.le_toInt w x
  have high := @BitVec.toInt_lt w x
  exact (IntType.range_signed rfl sized).mpr ⟨low,high⟩

theorem quotient_fits (sized : 0 < w) :
    ¬(signed w).InRange (x.toInt.tdiv y.toInt) ↔ x = BitVec.intMin w ∧ y = -1 := by
  have overflow : ¬(signed w).InRange (x.toInt.tdiv y.toInt) ↔
      BitVec.ofInt w x.toInt = BitVec.intMin w ∧ BitVec.ofInt w y.toInt = -1 :=
    IntType.quotient_overflow rfl sized (toInt_ranged sized x) (toInt_ranged sized y)
  rwa [BitVec.ofInt_toInt,BitVec.ofInt_toInt] at overflow

theorem minus_one (sized : 0 < w) : (-1 : BitVec w).toInt = -1 := by
  rw [show (-1 : BitVec w) = BitVec.allOnes w from BitVec.neg_one_eq_allOnes,BitVec.toInt_allOnes,if_pos sized]

-- The one quotient that is out of range.
theorem least_quotient (sized : 0 < w) : (BitVec.intMin w).toInt.tdiv (-1 : BitVec w).toInt = 2 ^ (w - 1) := by
  rw [BitVec.toInt_intMin_of_pos sized,minus_one sized]
  simp

theorem divS_specified (sized : 0 < w) : DIV_S (BitVec.intMin w) x y = idivS x y := by
  unfold DIV_S idivS
  by_cases zero : y = 0
  · rw [if_pos zero,if_pos (zero_toInt.mpr zero)]
  · rw [if_neg zero,if_neg (mt zero_toInt.mp zero)]
    have fits := quotient_fits (x := x) (y := y) sized
    by_cases least : x = BitVec.intMin w ∧ y = -1
    · rw [if_pos least,if_pos (by rw [least.1,least.2]; exact least_quotient sized)]
    · have ranged := Classical.not_not.mp (mt fits.mp least)
      have below : x.toInt.tdiv y.toInt < 2 ^ (w - 1) := ((IntType.range_signed rfl sized).mp ranged).2
      rw [if_neg least,if_neg (Int.ne_of_lt below),quotient,if_pos ⟨zero,ranged⟩]

theorem remS_specified (sized : 0 < w) : REM_S (BitVec.intMin w) x y = iremS x y := by
  unfold REM_S iremS
  rw [← Int.tmod_def]
  by_cases zero : y = 0
  · rw [if_pos zero,if_pos (zero_toInt.mpr zero)]
  · rw [if_neg zero,if_neg (mt zero_toInt.mp zero)]
    have fits := quotient_fits (x := x) (y := y) sized
    by_cases least : x = BitVec.intMin w ∧ y = -1
    · rw [if_pos least,least.2,minus_one sized]
      simp
    · have ranged := Classical.not_not.mp (mt fits.mp least)
      rw [if_neg least,remainder,if_pos ⟨zero,ranged⟩]

theorem divU_specified : DIV_U x y = idivU x y := by
  unfold DIV_U DIVREM_U idivU unsignedQuotient
  by_cases zero : y = 0
  · simp [zero]
  · have positive : y.toNat ≠ 0 := fun same => zero (BitVec.eq_of_toNat_eq same)
    rw [if_neg zero,if_neg zero,if_neg positive,← BitVec.toNat_udiv,BitVec.ofNat_toNat,BitVec.setWidth_eq]

theorem remU_specified : REM_U x y = iremU x y := by
  unfold REM_U DIVREM_U iremU unsignedRemainder
  by_cases zero : y = 0
  · simp [zero]
  · have positive : y.toNat ≠ 0 := fun same => zero (BitVec.eq_of_toNat_eq same)
    rw [if_neg zero,if_neg zero,if_neg positive,← Nat.mod_eq_sub,← BitVec.toNat_umod,BitVec.ofNat_toNat,
      BitVec.setWidth_eq]

theorem bits_get {i : Nat} (inside : i < w) : (bits x)[i]? = some (x.getMsbD i) := by
  simp [bits,inside]

theorem bits_length : (bits x).length = w := List.length_ofFn

-- A rotation whose left part is shifted by k, and whose right part by what is left of the width.
theorem rotated_bits {k : Nat} (small : k < w) :
    bits (x <<< k ||| x >>> ((w - k) % w)) = (bits x).rotate k := by
  have same : x <<< k ||| x >>> ((w - k) % w) = x.rotateLeft k := by
    rw [BitVec.rotateLeft_def,Nat.mod_eq_of_lt small]
    rcases Nat.eq_zero_or_pos k with rfl | positive
    · simp [BitVec.ushiftRight_eq_zero]
    · rw [Nat.mod_eq_of_lt (by omega)]
  rw [same]
  apply List.ext_getElem
  · simp [bits_length]
  · intro i one two
    rw [bits_length] at one
    simp [bits,List.getElem_rotate,BitVec.getMsbD_rotateLeft,Nat.add_comm]

theorem shifts_rotate {k : Nat} (small : k < w) :
    ((shiftLeft x k).both (· ||| ·) (shiftRight x ((w - k) % w))) = .value (x <<< k ||| x >>> ((w - k) % w)) ∧
    ((shiftRight x k).both (· ||| ·) (shiftLeft x ((w - k) % w))) = .value (x >>> k ||| x <<< ((w - k) % w)) := by
  have other : (w - k) % w < w := Nat.mod_lt _ (by omega)
  simp [shiftLeft,shiftRight,small,other,Result.both]

theorem ROTL_specified {mask : BitVec w} {k : Nat} (small : k < w) (left : (y &&& mask).toNat = k)
    (right : ((mask - y + 1) &&& mask).toNat = (w - k) % w) :
    ∃ r, ROTL x y mask = .value r ∧ bits r = (bits x).rotate k := by
  refine ⟨_,?_,rotated_bits small⟩
  rw [ROTL,left,right,(shifts_rotate small).1]

-- A rotation to the right is one to the left by the rest of the width.
theorem ROTR_specified {mask : BitVec w} {k : Nat} (small : k < w) (left : (y &&& mask).toNat = k)
    (right : ((mask - y + 1) &&& mask).toNat = (w - k) % w) :
    ∃ r, ROTR x y mask = .value r ∧ (bits r).rotate k = bits x := by
  have other : (w - k) % w < w := Nat.mod_lt _ (by omega)
  have back : (w - (w - k) % w) % w = k := by
    rcases Nat.eq_zero_or_pos k with rfl | positive
    · simp
    · rw [Nat.mod_eq_of_lt (show w - k < w by omega),Nat.sub_sub_self (by omega),Nat.mod_eq_of_lt small]
  have rotated := rotated_bits (x := x) other
  rw [back,BitVec.or_comm] at rotated
  refine ⟨_,by rw [ROTR,left,right,(shifts_rotate small).2],?_⟩
  rw [rotated,List.rotate_rotate,← List.rotate_mod,bits_length]
  have whole : ((w - k) % w + k) % w = 0 := by
    rw [Nat.mod_add_mod,Nat.sub_add_cancel (Nat.le_of_lt small),Nat.mod_self]
  rw [whole,List.rotate_zero]

theorem rotation_counts32 (y : U32) :
    (y &&& 31).toNat = y.toNat % 32 ∧ ((31 - y + 1) &&& 31).toNat = (32 - y.toNat % 32) % 32 := by
  have low : ∀ z : U32, (z &&& 31).toNat = z.toNat % 32 := fun z => Nat.and_two_pow_sub_one_eq_mod z.toNat 5
  have bound := y.isLt
  refine ⟨low y,?_⟩
  have mask : (31 : U32).toNat = 31 := rfl
  have one : (1 : U32).toNat = 1 := rfl
  rw [low,BitVec.toNat_add,BitVec.toNat_sub,mask,one]
  omega

theorem rotation_counts64 (y : U64) :
    (y &&& 63).toNat = y.toNat % 64 ∧ ((63 - y + 1) &&& 63).toNat = (64 - y.toNat % 64) % 64 := by
  have low : ∀ z : U64, (z &&& 63).toNat = z.toNat % 64 := fun z => Nat.and_two_pow_sub_one_eq_mod z.toNat 6
  have bound := y.isLt
  refine ⟨low y,?_⟩
  have mask : (63 : U64).toNat = 63 := rfl
  have one : (1 : U64).toNat = 1 := rfl
  rw [low,BitVec.toNat_add,BitVec.toNat_sub,mask,one]
  omega

-- The loops: a round passes over one zero bit.
theorem countLoop_counts (one : BitVec w) (move : BitVec w → BitVec w) (after : Nat → BitVec w) {k : Nat}
    (moved : ∀ i < k, move (after i) = after (i + 1)) (zero : ∀ i < k, after i &&& one = 0)
    (last : after k &&& one ≠ 0)
    {rounds i : Nat} (before : i ≤ k) (enough : k - i < rounds) :
    countLoop one move rounds (after i) (BitVec.ofNat w i) = some (BitVec.ofNat w k) := by
  induction rounds generalizing i with
  | zero => omega
  | succ rounds ih =>
    rw [countLoop]
    rcases Nat.eq_or_lt_of_le before with rfl | inside
    · rw [if_neg last]
    · have next : BitVec.ofNat w i + 1 = BitVec.ofNat w (i + 1) := (BitVec.ofNat_add ..).symm
      rw [if_pos (zero i inside),moved i inside,next]
      exact ih inside (by omega)

theorem zerosBefore_parts (bs : List Bool) :
    (∀ i < zerosBefore bs, bs[i]? = some false) ∧
    (zerosBefore bs < bs.length → bs[zerosBefore bs]? = some true) ∧ zerosBefore bs ≤ bs.length := by
  induction bs with
  | nil => simp [zerosBefore]
  | cons b bs ih =>
    cases b with
    | true => simp [zerosBefore]
    | false =>
      have next : zerosBefore (false :: bs) = zerosBefore bs + 1 := by simp [zerosBefore]
      obtain ⟨zeros,one,bound⟩ := ih
      rw [next]
      refine ⟨fun i inside => ?_,fun inside => ?_,Nat.succ_le_succ bound⟩
      · cases i with
        | zero => rfl
        | succ i => simpa using zeros i (Nat.lt_of_succ_lt_succ inside)
      · simpa using one (Nat.lt_of_succ_lt_succ inside)

theorem bits_reverse : (bits x).reverse = List.ofFn fun i : Fin w => x.getLsbD i := by
  apply List.ext_getElem
  · simp [bits]
  · intro i one two
    have inside : i < w := by simpa using two
    have back : w - 1 - (w - 1 - i) = i := by omega
    have under : w - 1 - i < w := by omega
    simp only [bits,List.getElem_reverse,List.getElem_ofFn,List.length_ofFn,BitVec.getMsbD,under,back,decide_true,
      Bool.true_and]

theorem top_bit (sized : 0 < w) : x &&& BitVec.intMin w = 0 ↔ x.getMsbD 0 = false := by
  constructor
  · intro zero
    have bit := congrArg (fun z : BitVec w => z.getMsbD 0) zero
    simpa [sized,BitVec.getMsbD_intMin] using bit
  · intro clear
    apply BitVec.eq_of_getMsbD_eq
    intro i inside
    cases i with
    | zero => simp [clear]
    | succ i => simp [BitVec.getMsbD_intMin]

theorem low_bit (sized : 0 < w) : x &&& 1 = 0 ↔ x.getLsbD 0 = false := by
  have one : x &&& 1 = BitVec.setWidth w (BitVec.ofBool (x.getLsbD 0)) := BitVec.and_one_eq_setWidth_ofBool_getLsbD
  rw [one]
  cases x.getLsbD 0 with
  | false => simp
  | true =>
    have least : 1 < 2 ^ w := Nat.one_lt_two_pow (Nat.ne_of_gt sized)
    simp [← BitVec.toNat_inj,Nat.mod_eq_of_lt least]

theorem zerosBefore_inside {bs : List Bool} (found : true ∈ bs) : zerosBefore bs < bs.length := by
  induction bs with
  | nil => cases found
  | cons b bs ih =>
    cases b with
    | true => simp [zerosBefore]
    | false =>
      have part := ih (by simpa using found)
      simpa [zerosBefore] using part

theorem some_bit (nonzero : x ≠ 0) : true ∈ bits x := by
  apply Classical.byContradiction
  intro missing
  apply nonzero
  apply BitVec.eq_of_getMsbD_eq
  intro i inside
  have present : x.getMsbD i ∈ bits x := List.mem_of_getElem? (bits_get inside)
  cases bit : x.getMsbD i with
  | false => simp
  | true => exact absurd (bit ▸ present) missing

theorem clz_loop (sized : 0 < w) (nonzero : x ≠ 0) {rounds : Nat} (enough : w ≤ rounds) :
    countLoop (BitVec.intMin w) (· <<< 1) rounds x 0 = some (BitVec.ofNat w (zerosBefore (bits x))) := by
  obtain ⟨zeros,one,_⟩ := zerosBefore_parts (bits x)
  have inside := zerosBefore_inside (some_bit nonzero)
  have found := one inside
  rw [bits_length] at inside
  rw [bits_get inside] at found
  have shifted : ∀ i, (x <<< i).getMsbD 0 = x.getMsbD i := fun i => by simp
  have loop := countLoop_counts (BitVec.intMin w) (· <<< 1) (x <<< ·) (k := zerosBefore (bits x))
    (fun i _ => (BitVec.shiftLeft_add x i 1).symm)
    (fun i before => (top_bit sized).mpr ?_) (fun clear => ?_) (Nat.zero_le _) (Nat.lt_of_lt_of_le inside enough)
  · simpa using loop
  · have clear := zeros i before
    rw [bits_get (by omega)] at clear
    rw [shifted]
    exact Option.some.inj clear
  · have bit := (top_bit sized).mp clear
    rw [shifted,Option.some.inj found] at bit
    cases bit

theorem ctz_loop (sized : 0 < w) (nonzero : x ≠ 0) {rounds : Nat} (enough : w ≤ rounds) :
    countLoop 1 (· >>> 1) rounds x 0 = some (BitVec.ofNat w (zerosBefore (bits x).reverse)) := by
  obtain ⟨zeros,one,_⟩ := zerosBefore_parts (bits x).reverse
  have inside := zerosBefore_inside (List.mem_reverse.mpr (some_bit nonzero))
  have found := one inside
  have low : ∀ i < w, (bits x).reverse[i]? = some (x.getLsbD i) := fun i less => by simp [bits_reverse,less]
  rw [List.length_reverse,bits_length] at inside
  rw [low _ inside] at found
  have shifted : ∀ i, (x >>> i).getLsbD 0 = x.getLsbD i := fun i => by simp
  have loop := countLoop_counts 1 (· >>> 1) (x >>> ·) (k := zerosBefore (bits x).reverse)
    (fun i _ => (BitVec.shiftRight_add x i 1).symm)
    (fun i before => (low_bit sized).mpr ?_) (fun clear => ?_) (Nat.zero_le _) (Nat.lt_of_lt_of_le inside enough)
  · simpa using loop
  · have clear := zeros i before
    rw [low i (by omega)] at clear
    rw [shifted]
    exact Option.some.inj clear
  · have bit := (low_bit sized).mp clear
    rw [shifted,Option.some.inj found] at bit
    cases bit

end

-- A number read as lanes of k bits, and the sum of the first n of them.
def laneSum (k : Nat) : Nat → Nat → Nat
  | 0,_ => 0
  | n+1,x => x % 2 ^ k + laneSum k n (x / 2 ^ k)

-- Every second lane of k bits.
def evenLanes (k : Nat) : Nat → Nat
  | 0 => 0
  | n+1 => (2 ^ k - 1) + 2 ^ (k + k) * evenLanes k n

-- Each lane added to the one above it, as a lane of twice the bits.
def pairLanes (k n x : Nat) : Nat := ((x >>> k) &&& evenLanes k n) + (x &&& evenLanes k n)

def LanesBelow (k bound x : Nat) : Prop := ∀ i, x / 2 ^ (k * i) % 2 ^ k ≤ bound

theorem and_parts (x y s : Nat) : x &&& y = (x % 2 ^ s &&& y % 2 ^ s) + 2 ^ s * (x / 2 ^ s &&& y / 2 ^ s) := by
  rw [← Nat.and_mod_two_pow,← Nat.and_div_two_pow,Nat.mod_add_div]

theorem low_mask (k : Nat) : 2 ^ k - 1 < 2 ^ (k + k) := by
  have bound : 2 ^ k ≤ 2 ^ (k + k) := Nat.pow_le_pow_right (by decide) (Nat.le_add_left k k)
  have positive := Nat.two_pow_pos k
  omega

theorem and_evenLanes (k n x : Nat) :
    x &&& evenLanes k (n + 1) = x % 2 ^ k + 2 ^ (k + k) * (x / 2 ^ (k + k) &&& evenLanes k n) := by
  have small := low_mask k
  have low : evenLanes k (n + 1) % 2 ^ (k + k) = 2 ^ k - 1 := by
    rw [evenLanes,Nat.add_mul_mod_self_left,Nat.mod_eq_of_lt small]
  have high : evenLanes k (n + 1) / 2 ^ (k + k) = evenLanes k n := by
    rw [evenLanes,Nat.add_mul_div_left _ _ (Nat.two_pow_pos _),Nat.div_eq_of_lt small,Nat.zero_add]
  have inside : 2 ^ k ∣ 2 ^ (k + k) := Nat.pow_dvd_pow 2 (Nat.le_add_left k k)
  rw [and_parts x _ (k + k),low,high,Nat.and_two_pow_sub_one_eq_mod,Nat.mod_mod_of_dvd x inside]

theorem pairLanes_succ (k n x : Nat) :
    pairLanes k (n + 1) x =
      (x / 2 ^ k % 2 ^ k + x % 2 ^ k) + 2 ^ (k + k) * pairLanes k n (x / 2 ^ (k + k)) := by
  have shifted : x / 2 ^ k / 2 ^ (k + k) = x / 2 ^ (k + k) / 2 ^ k := by
    rw [Nat.div_div_eq_div_mul,Nat.div_div_eq_div_mul,Nat.mul_comm]
  simp only [pairLanes,and_evenLanes,Nat.shiftRight_eq_div_pow,shifted,Nat.mul_add]
  omega

-- Two lanes of k bits sum within a lane of twice the bits.
theorem pair_small {k : Nat} (sized : 0 < k) (x : Nat) : x / 2 ^ k % 2 ^ k + x % 2 ^ k < 2 ^ (k + k) := by
  have one := Nat.mod_lt (x / 2 ^ k) (Nat.two_pow_pos k)
  have two := Nat.mod_lt x (Nat.two_pow_pos k)
  have least : 2 ≤ 2 ^ k := Nat.le_self_pow (Nat.ne_of_gt sized) 2
  have double : 2 * 2 ^ k ≤ 2 ^ (k + k) := by
    rw [Nat.pow_add]
    exact Nat.mul_le_mul_right _ least
  omega

theorem pairLanes_low {k : Nat} (sized : 0 < k) (n x : Nat) :
    pairLanes k (n + 1) x % 2 ^ (k + k) = x / 2 ^ k % 2 ^ k + x % 2 ^ k := by
  rw [pairLanes_succ,Nat.add_mul_mod_self_left,Nat.mod_eq_of_lt (pair_small sized x)]

theorem pairLanes_high {k : Nat} (sized : 0 < k) (n x : Nat) :
    pairLanes k (n + 1) x / 2 ^ (k + k) = pairLanes k n (x / 2 ^ (k + k)) := by
  rw [pairLanes_succ,Nat.add_mul_div_left _ _ (Nat.two_pow_pos _),Nat.div_eq_of_lt (pair_small sized x),Nat.zero_add]

theorem laneSum_pairs {k : Nat} (sized : 0 < k) (n x : Nat) :
    laneSum (k + k) n (pairLanes k n x) = laneSum k (n + n) x := by
  induction n generalizing x with
  | zero => rfl
  | succ n ih =>
    have twice : n + 1 + (n + 1) = n + n + 1 + 1 := by omega
    rw [laneSum,pairLanes_low sized,pairLanes_high sized,ih,twice,laneSum,laneSum,Nat.div_div_eq_div_mul,
      ← Nat.pow_add]
    omega

theorem pairLanes_zero (k x : Nat) : pairLanes k 0 x = 0 := by simp [pairLanes,evenLanes]

theorem pairLanes_bound {k : Nat} (sized : 0 < k) (n x : Nat) : pairLanes k n x < 2 ^ ((k + k) * n) := by
  induction n generalizing x with
  | zero => simp [pairLanes_zero]
  | succ n ih =>
    have next : 2 ^ ((k + k) * (n + 1)) = 2 ^ ((k + k) * n) * 2 ^ (k + k) := Nat.pow_add ..
    have part := ih (x / 2 ^ (k + k))
    rw [next,← Nat.div_lt_iff_lt_mul (Nat.two_pow_pos _),pairLanes_high sized]
    exact part

theorem lanesBelow_div {k bound x : Nat} (below : LanesBelow k bound x) (j : Nat) :
    LanesBelow k bound (x / 2 ^ (k * j)) := by
  intro i
  rw [Nat.div_div_eq_div_mul,← Nat.pow_add,← Nat.mul_add]
  exact below (j + i)

theorem lanesBelow_next {k bound x : Nat} (below : LanesBelow k bound x) :
    x % 2 ^ k ≤ bound ∧ LanesBelow k bound (x / 2 ^ k) := by
  have low := below 0
  have high := lanesBelow_div below 1
  rw [Nat.mul_zero,Nat.pow_zero,Nat.div_one] at low
  rw [Nat.mul_one] at high
  exact ⟨low,high⟩

theorem pairLanes_below {k bound n x : Nat} (sized : 0 < k) (below : LanesBelow k bound x) :
    LanesBelow (k + k) (bound + bound) (pairLanes k n x) := by
  intro i
  induction n generalizing x i with
  | zero => simp [pairLanes_zero]
  | succ n ih =>
    cases i with
    | zero =>
      have one := below 1
      have two := below 0
      rw [Nat.mul_one] at one
      rw [Nat.mul_zero,Nat.pow_zero,Nat.div_one] at two ⊢
      rw [pairLanes_low sized]
      exact Nat.add_le_add one two
    | succ i =>
      have part := ih (x := x / 2 ^ (k * 2)) (lanesBelow_div below 2) i
      rw [Nat.mul_succ,Nat.add_comm ((k + k) * i),Nat.pow_add,← Nat.div_div_eq_div_mul,
        pairLanes_high sized,← Nat.mul_two]
      rwa [← Nat.mul_two] at part

-- The first step subtracts the upper bit of each pair instead of masking it.
theorem pairs_subtracted (n x : Nat) (bound : x < 2 ^ (2 * n)) :
    ((x >>> 1) &&& evenLanes 1 n) + pairLanes 1 n x = x := by
  induction n generalizing x with
  | zero =>
    have none_left : x = 0 := by simpa using bound
    simp [none_left,pairLanes,evenLanes]
  | succ n ih =>
    have next : x / 2 ^ (1 + 1) < 2 ^ (2 * n) := by
      rw [Nat.div_lt_iff_lt_mul (Nat.two_pow_pos _),← Nat.pow_add]
      exact bound
    have part := ih _ next
    rw [pairLanes_succ,Nat.shiftRight_eq_div_pow,and_evenLanes]
    rw [Nat.shiftRight_eq_div_pow,Nat.div_div_eq_div_mul,Nat.mul_comm] at part
    rw [Nat.div_div_eq_div_mul]
    omega

theorem halved_parts {P a b c r : Nat} (first : a + b < P) (second : b + c < P) :
    ((b + P * (c + P * r)) + (a + P * (b + P * (c + P * r)))) % P = b + a ∧
    ((b + P * (c + P * r)) + (a + P * (b + P * (c + P * r)))) / (P * P) = r + (c + P * r) := by
  have parts : (b + P * (c + P * r)) + (a + P * (b + P * (c + P * r))) =
      ((b + a) + P * (b + c)) + P * P * (r + (c + P * r)) := by ring
  have small : (b + a) + P * (b + c) < P * P := by
    calc (b + a) + P * (b + c) < P + P * (b + c) := by omega
      _ = P * (b + c + 1) := by ring
      _ ≤ P * P := Nat.mul_le_mul_left P second
  rw [parts]
  constructor
  · rw [Nat.mul_assoc,Nat.add_mul_mod_self_left,Nat.add_mul_mod_self_left,Nat.mod_eq_of_lt (by omega)]
  · have positive : 0 < P * P := Nat.lt_of_le_of_lt (Nat.zero_le _) small
    rw [Nat.add_mul_div_left _ _ positive,Nat.div_eq_of_lt small,Nat.zero_add]

-- The last step masks after the sum, as no sum of two lanes leaves its lane.
theorem pairs_masked {k bound : Nat} (fits : bound + bound < 2 ^ k) (n : Nat) {x : Nat}
    (below : LanesBelow k bound x) : ((x >>> k) + x) &&& evenLanes k n = pairLanes k n x := by
  induction n generalizing x with
  | zero => simp [pairLanes,evenLanes]
  | succ n ih =>
    have part := ih (x := x / 2 ^ (k * 2)) (lanesBelow_div below 2)
    have lanes : x % 2 ^ k ≤ bound ∧ x / 2 ^ k % 2 ^ k ≤ bound ∧ x / 2 ^ k / 2 ^ k % 2 ^ k ≤ bound := by
      have low := below 0
      have mid := below 1
      have high := below 2
      rw [Nat.mul_zero,Nat.pow_zero,Nat.div_one] at low
      rw [Nat.mul_one] at mid
      rw [Nat.mul_two,Nat.pow_add,← Nat.div_div_eq_div_mul] at high
      exact ⟨low,mid,high⟩
    have split := halved_parts (P := 2 ^ k) (a := x % 2 ^ k) (b := x / 2 ^ k % 2 ^ k)
      (c := x / 2 ^ k / 2 ^ k % 2 ^ k) (r := x / 2 ^ k / 2 ^ k / 2 ^ k) (by omega) (by omega)
    simp only [Nat.mod_add_div] at split
    rw [Nat.mul_two,Nat.pow_add,← Nat.div_div_eq_div_mul] at part
    rw [and_evenLanes,pairLanes_succ,Nat.shiftRight_eq_div_pow,Nat.pow_add,split.1,split.2,
      ← Nat.div_div_eq_div_mul,← part,Nat.shiftRight_eq_div_pow]


theorem count_laneSum (n x : Nat) : (List.ofFn fun i : Fin n => x.testBit i).count true = laneSum 1 n x := by
  induction n generalizing x with
  | zero => rfl
  | succ n ih =>
    have rest : (fun i : Fin n => x.testBit (i.succ : Fin (n + 1))) = fun i : Fin n => (x / 2).testBit i :=
      funext fun i => Nat.testBit_succ x i
    rw [List.ofFn_succ,rest,List.count_cons,ih,laneSum,Nat.pow_one]
    have first : x.testBit ((0 : Fin (n + 1)) : Nat) = decide (x % 2 = 1) := Nat.testBit_zero x
    rw [first]
    have cases_ := Nat.mod_two_eq_zero_or_one x
    rcases cases_ with even | odd
    · simp [even]
    · simp [odd,Nat.add_comm]

theorem popcount_bits {w : Nat} (x : BitVec w) : (bits x).count true = laneSum 1 w x.toNat := by
  rw [← List.count_reverse,bits_reverse,← count_laneSum]
  rfl

theorem lanes_single (x : Nat) : LanesBelow 1 1 x := fun i => Nat.le_of_lt_succ (Nat.mod_lt _ (by decide))

-- The three steps, of numbers of 8 bits each.
theorem three_steps (n x : Nat) :
    laneSum 8 n (pairLanes 4 n (pairLanes 2 (n + n) (pairLanes 1 (n + n + (n + n)) x))) =
      laneSum 1 (n + n + (n + n) + (n + n + (n + n))) x := by
  rw [laneSum_pairs (k := 4) (by decide),laneSum_pairs (k := 2) (by decide),laneSum_pairs (k := 1) (by decide)]

theorem counts_below (n x : Nat) :
    LanesBelow 8 8 (pairLanes 4 n (pairLanes 2 (n + n) (pairLanes 1 (n + n + (n + n)) x))) :=
  pairLanes_below (k := 4) (by decide) (pairLanes_below (k := 2) (by decide)
    (pairLanes_below (k := 1) (by decide) (lanes_single x)))

theorem laneSum_bound {k bound : Nat} (n : Nat) {x : Nat} (below : LanesBelow k bound x) :
    laneSum k n x ≤ bound * n := by
  induction n generalizing x with
  | zero => exact Nat.zero_le _
  | succ n ih =>
    obtain ⟨low,rest⟩ := lanesBelow_next below
    have part := ih rest
    rw [laneSum,Nat.mul_succ]
    omega

-- The factor that gathers the bytes in the highest one.
def ones : Nat → Nat
  | 0 => 0
  | n+1 => 1 + 2 ^ 8 * ones n

theorem ones_top (n : Nat) : ones (n + 1) = 2 ^ (8 * n) + ones n := by
  induction n with
  | zero => rfl
  | succ n ih =>
    have next : 2 ^ (8 * (n + 1)) = 2 ^ 8 * 2 ^ (8 * n) := by rw [← Nat.pow_add,Nat.mul_succ,Nat.add_comm]
    have upper : ones (n + 1 + 1) = 1 + 2 ^ 8 * ones (n + 1) := rfl
    have lower : ones (n + 1) = 1 + 2 ^ 8 * ones n := rfl
    rw [upper,next,lower]
    omega

theorem lanes_gathered (n : Nat) {x bound : Nat} (below : LanesBelow 8 bound x) (inside : x < 2 ^ (8 * (n + 1))) :
    ∃ low high, x * ones (n + 1) = low + 2 ^ (8 * n) * laneSum 8 (n + 1) x + 2 ^ (8 * (n + 1)) * high ∧
      low ≤ bound * n * ones n := by
  induction n generalizing x with
  | zero =>
    refine ⟨0,0,?_,Nat.zero_le _⟩
    have single : x % 2 ^ 8 = x := Nat.mod_eq_of_lt inside
    rw [laneSum,single]
    simp [ones,laneSum]
  | succ n ih =>
    obtain ⟨least,rest⟩ := lanesBelow_next below
    have under : x / 2 ^ 8 < 2 ^ (8 * (n + 1)) := by
      rw [Nat.div_lt_iff_lt_mul (Nat.two_pow_pos _),← Nat.pow_add]
      exact inside
    obtain ⟨low,high,parts,small⟩ := ih rest under
    have step : 2 ^ (8 * (n + 1)) = 2 ^ 8 * 2 ^ (8 * n) := by rw [← Nat.pow_add,Nat.mul_succ,Nat.add_comm]
    have after : 2 ^ (8 * (n + 1 + 1)) = 2 ^ 8 * 2 ^ (8 * (n + 1)) := by
      rw [← Nat.pow_add,Nat.mul_succ 8 (n + 1),Nat.add_comm]
    have sum : laneSum 8 (n + 1 + 1) x = x % 2 ^ 8 + laneSum 8 (n + 1) (x / 2 ^ 8) := rfl
    refine ⟨x % 2 ^ 8 * ones (n + 1) + 2 ^ 8 * low,high + x / 2 ^ 8,?_,?_⟩
    · calc x * ones (n + 1 + 1) = (x % 2 ^ 8 + 2 ^ 8 * (x / 2 ^ 8)) * ones (n + 1 + 1) := by rw [Nat.mod_add_div]
        _ = x % 2 ^ 8 * ones (n + 1) + 2 ^ 8 * (x / 2 ^ 8 * ones (n + 1)) +
            2 ^ (8 * (n + 1)) * (x % 2 ^ 8 + 2 ^ 8 * (x / 2 ^ 8)) := by rw [ones_top (n + 1)]; ring
        _ = _ := by rw [parts,sum,after,step]; ring
    · have one : x % 2 ^ 8 * ones (n + 1) ≤ bound * ones (n + 1) := Nat.mul_le_mul_right _ least
      have two : 2 ^ 8 * low ≤ bound * n * ones (n + 1) := by
        calc 2 ^ 8 * low ≤ 2 ^ 8 * (bound * n * ones n) := Nat.mul_le_mul_left _ small
          _ = bound * n * (2 ^ 8 * ones n) := by ring
          _ ≤ bound * n * ones (n + 1) := Nat.mul_le_mul_left _ (Nat.le_add_left ..)
      calc x % 2 ^ 8 * ones (n + 1) + 2 ^ 8 * low ≤ bound * ones (n + 1) + bound * n * ones (n + 1) :=
            Nat.add_le_add one two
        _ = bound * (n + 1) * ones (n + 1) := by ring

theorem pair_step32 (x : U32) : (x - ((x >>> 1) &&& 0x55555555)).toNat = pairLanes 1 16 x.toNat := by
  have parts := pairs_subtracted 16 x.toNat x.isLt
  have mask : ((x >>> 1) &&& 0x55555555).toNat = (x.toNat >>> 1) &&& evenLanes 1 16 := rfl
  rw [BitVec.toNat_sub_of_le (by rw [BitVec.le_def,mask]; omega),mask]
  omega

theorem nibble_step32 (x : U32) :
    (((x >>> 2) &&& 0x33333333) + (x &&& 0x33333333)).toNat = pairLanes 2 8 x.toNat := by
  have sum : (((x >>> 2) &&& 0x33333333) + (x &&& 0x33333333)).toNat = pairLanes 2 8 x.toNat % 2 ^ 32 := rfl
  rw [sum,Nat.mod_eq_of_lt (pairLanes_bound (by decide) 8 x.toNat)]

theorem byte_step32 {x : U32} (below : LanesBelow 4 4 x.toNat) :
    (((x >>> 4) + x) &&& 0x0F0F0F0F).toNat = pairLanes 4 4 x.toNat := by
  have mask : (((x >>> 4) + x) &&& 0x0F0F0F0F).toNat =
      ((x.toNat >>> 4) + x.toNat) % 2 ^ 32 &&& evenLanes 4 4 % 2 ^ 32 := rfl
  rw [mask,← Nat.and_mod_two_pow,pairs_masked (by decide : 4 + 4 < 2 ^ 4) 4 below,
    Nat.mod_eq_of_lt (pairLanes_bound (by decide) 4 x.toNat)]

theorem sum_step32 {x : U32} (below : LanesBelow 8 8 x.toNat) :
    ((x * 0x01010101) >>> 24).toNat = laneSum 8 (3 + 1) x.toNat := by
  have bound := x.isLt
  have product : ((x * 0x01010101) >>> 24).toNat = x.toNat * 0x01010101 % 2 ^ 32 / 2 ^ 24 := by
    rw [BitVec.toNat_ushiftRight,Nat.shiftRight_eq_div_pow,BitVec.toNat_mul]
    rfl
  obtain ⟨low,high,parts,small⟩ := lanes_gathered 3 below bound
  have total : laneSum 8 (3 + 1) x.toNat ≤ 8 * (3 + 1) := laneSum_bound _ below
  have factor : ones 4 = 0x01010101 := rfl
  have rest : ones 3 = 0x010101 := rfl
  rw [rest] at small
  rw [product,← factor,parts]
  omega

theorem I32_POPCNT_specified (x : U32) : (I32_POPCNT x).toNat = (bits x).count true := by
  have small := counts_below 4 x.toNat
  have steps := three_steps 4 x.toNat
  have nibbles : LanesBelow 4 4 (pairLanes 2 8 (pairLanes 1 16 x.toNat)) :=
    pairLanes_below (k := 2) (by decide) (pairLanes_below (k := 1) (by decide) (lanes_single x.toNat))
  rw [← pair_step32,← nibble_step32] at nibbles
  rw [← pair_step32,← nibble_step32,← byte_step32 nibbles] at small steps
  rw [popcount_bits,← steps,← sum_step32 small]
  rfl

theorem pair_step64 (x : U64) : (x - ((x >>> 1) &&& 0x5555555555555555)).toNat = pairLanes 1 32 x.toNat := by
  have parts := pairs_subtracted 32 x.toNat x.isLt
  have mask : ((x >>> 1) &&& 0x5555555555555555).toNat = (x.toNat >>> 1) &&& evenLanes 1 32 := rfl
  rw [BitVec.toNat_sub_of_le (by rw [BitVec.le_def,mask]; omega),mask]
  omega

theorem nibble_step64 (x : U64) :
    (((x >>> 2) &&& 0x3333333333333333) + (x &&& 0x3333333333333333)).toNat = pairLanes 2 16 x.toNat := by
  have sum : (((x >>> 2) &&& 0x3333333333333333) + (x &&& 0x3333333333333333)).toNat =
      pairLanes 2 16 x.toNat % 2 ^ 64 := rfl
  rw [sum,Nat.mod_eq_of_lt (pairLanes_bound (by decide) 16 x.toNat)]

theorem byte_step64 {x : U64} (below : LanesBelow 4 4 x.toNat) :
    (((x >>> 4) + x) &&& 0x0f0f0f0f0f0f0f0f).toNat = pairLanes 4 8 x.toNat := by
  have mask : (((x >>> 4) + x) &&& 0x0f0f0f0f0f0f0f0f).toNat =
      ((x.toNat >>> 4) + x.toNat) % 2 ^ 64 &&& evenLanes 4 8 % 2 ^ 64 := rfl
  rw [mask,← Nat.and_mod_two_pow,pairs_masked (by decide : 4 + 4 < 2 ^ 4) 8 below,
    Nat.mod_eq_of_lt (pairLanes_bound (by decide) 8 x.toNat)]

theorem sum_step64 {x : U64} (below : LanesBelow 8 8 x.toNat) :
    ((x * 0x0101010101010101) >>> 56).toNat = laneSum 8 (7 + 1) x.toNat := by
  have bound := x.isLt
  have product : ((x * 0x0101010101010101) >>> 56).toNat = x.toNat * 0x0101010101010101 % 2 ^ 64 / 2 ^ 56 := by
    rw [BitVec.toNat_ushiftRight,Nat.shiftRight_eq_div_pow,BitVec.toNat_mul]
    rfl
  obtain ⟨low,high,parts,small⟩ := lanes_gathered 7 below bound
  have total : laneSum 8 (7 + 1) x.toNat ≤ 8 * (7 + 1) := laneSum_bound _ below
  have factor : ones 8 = 0x0101010101010101 := rfl
  have rest : ones 7 = 0x01010101010101 := rfl
  rw [rest] at small
  rw [product,← factor,parts]
  omega

theorem I64_POPCNT_specified (x : U64) : (I64_POPCNT x).toNat = (bits x).count true := by
  have small := counts_below 8 x.toNat
  have steps := three_steps 8 x.toNat
  have nibbles : LanesBelow 4 4 (pairLanes 2 16 (pairLanes 1 32 x.toNat)) :=
    pairLanes_below (k := 2) (by decide) (pairLanes_below (k := 1) (by decide) (lanes_single x.toNat))
  rw [← pair_step64,← nibble_step64] at nibbles
  rw [← pair_step64,← nibble_step64,← byte_step64 nibbles] at small steps
  rw [popcount_bits,← steps,← sum_step64 small]
  rfl

theorem count_fits {w n : Nat} (least : n ≤ w) : (BitVec.ofNat w n).toNat = n := by
  rw [BitVec.toNat_ofNat,Nat.mod_eq_of_lt (Nat.lt_of_le_of_lt least Nat.lt_two_pow_self)]

theorem i32_specified : Specified i32 where
  divS _ _ := divS_specified (by decide)
  remS _ _ := remS_specified (by decide)
  divU _ _ := divU_specified
  remU _ _ := remU_specified
  rotl _ y := ROTL_specified (Nat.mod_lt _ (by decide)) (rotation_counts32 y).1 (rotation_counts32 y).2
  rotr _ y := ROTR_specified (Nat.mod_lt _ (by decide)) (rotation_counts32 y).1 (rotation_counts32 y).2
  popcnt := I32_POPCNT_specified
  clz x rounds enough := by
    by_cases zero : x = 0
    · exact ⟨32,if_pos zero,by rw [zero]; rfl⟩
    · exact ⟨_,(if_neg zero).trans (clz_loop (by decide) zero enough),
        count_fits ((zerosBefore_parts _).2.2.trans (Nat.le_of_eq bits_length))⟩
  ctz x rounds enough := by
    by_cases zero : x = 0
    · exact ⟨32,if_pos zero,by rw [zero]; rfl⟩
    · exact ⟨_,(if_neg zero).trans (ctz_loop (by decide) zero enough),
        count_fits ((zerosBefore_parts _).2.2.trans (Nat.le_of_eq (List.length_reverse.trans bits_length)))⟩

theorem i64_specified : Specified i64 where
  divS _ _ := divS_specified (by decide)
  remS _ _ := remS_specified (by decide)
  divU _ _ := divU_specified
  remU _ _ := remU_specified
  rotl _ y := ROTL_specified (Nat.mod_lt _ (by decide)) (rotation_counts64 y).1 (rotation_counts64 y).2
  rotr _ y := ROTR_specified (Nat.mod_lt _ (by decide)) (rotation_counts64 y).1 (rotation_counts64 y).2
  popcnt := I64_POPCNT_specified
  clz x rounds enough := by
    by_cases zero : x = 0
    · exact ⟨64,if_pos zero,by rw [zero]; rfl⟩
    · exact ⟨_,(if_neg zero).trans (clz_loop (by decide) zero enough),
        count_fits ((zerosBefore_parts _).2.2.trans (Nat.le_of_eq bits_length))⟩
  ctz x rounds enough := by
    by_cases zero : x = 0
    · exact ⟨64,if_pos zero,by rw [zero]; rfl⟩
    · exact ⟨_,(if_neg zero).trans (ctz_loop (by decide) zero enough),
        count_fits ((zerosBefore_parts _).2.2.trans (Nat.le_of_eq (List.length_reverse.trans bits_length)))⟩

-- Both widths compute what the specification says, and trap where it traps.
theorem integer_helpers : Specified i32 ∧ Specified i64 := ⟨i32_specified,i64_specified⟩

end SandboxStack.IntegerHelpers
