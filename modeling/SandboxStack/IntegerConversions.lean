import SandboxStack.IntegerExpressions

namespace SandboxStack.Cc
open Wasm LinearMemory LittleEndian IntType

-- The integer and pointer types; _Bool has the values of one bit.
def scalarType : Ty → Option IntType
  | .bool => some ⟨1,true⟩
  | ty => ty.intType

structure Scalar where
  ty : Ty
  values : IntType
  known : scalarType ty = some values

-- The value of the type that C converts `z` to.
def Scalar.converted (target : Scalar) (z : Int) : Int :=
  if target.ty.isBool then truth (z != 0) else target.values.wrap z

-- On the operand stack a value is a number of its class, extended by the signedness of its type.
def Scalar.canonical (t : Scalar) (z : Int) : Value := represent t.values.bits z

-- The width of the class, and the extension that cast() chooses.
def Scalar.width (t : Scalar) : Nat := if t.values.bits = 64 then 64 else 32
def Scalar.extension (t : Scalar) : Bool := t.ty.isUnsigned || t.ty.isPtr || t.ty.isArray

section
variable {M : Machine} {s : State} {rest : List Value} {z : Int} {u : Bool} {n w : Nat}

theorem width_either (t : Scalar) : t.width = 32 ∨ t.width = 64 := by
  unfold Scalar.width
  split
  · exact .inr rfl
  · exact .inl rfl

theorem scalar_class (t : Scalar) : vclass (some t.ty) = some (classOf t.width) := by
  obtain ⟨ty,values,known⟩ := t
  cases ty <;> simp [scalarType,Ty.intType] at known <;> subst known <;> rfl

theorem canonical_width (t : Scalar) (z : Int) : t.canonical z = represent t.width z := by
  unfold Scalar.canonical represent Scalar.width
  by_cases large : t.values.bits = 64
  · rw [if_pos large,if_pos large,if_pos rfl]
  · rw [if_neg large,if_neg large,if_neg (by decide)]

theorem widened (small : (IntType.mk n u).InRange z) (sized : 0 < n) (wider : n ≤ w) :
    (IntType.mk w u).InRange z := by
  cases u with
  | true =>
    obtain ⟨low,high⟩ := (IntType.range_unsigned rfl).mp small
    have bound : (2 : Int) ^ n ≤ 2 ^ w := pow_le_pow_right₀ (by decide) wider
    exact (IntType.range_unsigned rfl).mpr ⟨low,Int.lt_of_lt_of_le high bound⟩
  | false =>
    obtain ⟨low,high⟩ := (IntType.range_signed rfl sized).mp small
    have bound : (2 : Int) ^ (n - 1) ≤ 2 ^ (w - 1) := pow_le_pow_right₀ (by decide) (by omega)
    exact (IntType.range_signed rfl (Nat.lt_of_lt_of_le sized wider)).mpr
      ⟨Int.le_trans (Int.neg_le_neg bound) low,Int.lt_of_lt_of_le high bound⟩

theorem bool_values (range : (IntType.mk 1 true).InRange z) : z = 0 ∨ z = 1 := by
  obtain ⟨low,high⟩ := (IntType.range_unsigned rfl).mp range
  have below : z < 2 := high
  omega

structure OrdinaryScalar (t : Scalar) : Prop where
  notBool : t.ty.isBool = false
  notVoid : t.ty.isVoid = false
  extension : t.extension = t.values.unsigned
  size : t.ty.size ilp32 * 8 = t.values.bits
  bits : t.values.bits = 8 ∨ t.values.bits = 16 ∨ t.values.bits = 32 ∨ t.values.bits = 64
  short : t.values.bits < 32 → t.ty.isInteger = true ∧ t.ty.isUnsigned = t.values.unsigned

theorem extension_ordinary (u : Bool) : (u || false || false) = u := by cases u <;> rfl

theorem bool_or_ordinary (t : Scalar) : t.ty = .bool ∧ t.values = ⟨1,true⟩ ∨ OrdinaryScalar t := by
  obtain ⟨ty,values,known⟩ := t
  cases ty <;> cases known
  case bool => exact .inl ⟨rfl,rfl⟩
  case char u => exact .inr ⟨rfl,rfl,extension_ordinary u,rfl,.inl rfl,fun _ => ⟨rfl,rfl⟩⟩
  case short u => exact .inr ⟨rfl,rfl,extension_ordinary u,rfl,by simp,fun _ => ⟨rfl,rfl⟩⟩
  case int u => exact .inr ⟨rfl,rfl,extension_ordinary u,rfl,by simp,by simp⟩
  case long u => exact .inr ⟨rfl,rfl,extension_ordinary u,rfl,by simp,by simp⟩
  case llong u => exact .inr ⟨rfl,rfl,extension_ordinary u,rfl,by simp,by simp⟩
  case enum => exact .inr ⟨rfl,rfl,rfl,rfl,by simp,by simp⟩
  case ptr base => exact .inr ⟨rfl,rfl,rfl,rfl,by simp,by simp⟩

-- A value of the type is one of its class, read with the signedness of the extension.
theorem scalar_extends (t : Scalar) (range : t.values.InRange z) : (IntType.mk t.width t.extension).InRange z := by
  rcases bool_or_ordinary t with ⟨bool,values⟩ | plain
  · rw [values] at range
    have width : t.width = 32 := by rw [Scalar.width,values]; rfl
    have extension : t.extension = false := by rw [Scalar.extension,bool]; rfl
    rw [width,extension]
    rcases bool_values range with rfl | rfl <;> decide
  · have bits := plain.bits
    have wider : t.values.bits ≤ t.width := by
      unfold Scalar.width
      split <;> omega
    rw [plain.extension]
    exact widened (n := t.values.bits) range (by omega) wider

-- Between the classes: an extension of the residue, or its low half.
theorem convert_run (range : (IntType.mk n u).InRange z) (source : n = 32 ∨ n = 64) (target : w = 32 ∨ w = 64) :
    ∃ code, convert (some (classOf n)) (some (classOf w)) u = .ok code ∧
      ∀ (s : State) (rest : List Value), s.stack = represent n z :: rest →
        execAll M code s = .ok {s with stack := represent w z :: rest} := by
  rcases source with rfl | rfl <;> rcases target with rfl | rfl
  · refine ⟨_,rfl,fun s rest stack => ?_⟩
    rw [← stack]
    rfl
  · refine ⟨_,rfl,fun s rest stack => numeric_run ?_⟩
    rw [stack]
    cases u with
    | true => exact congrArg (fun b => Except.ok (Value.i64 b :: rest)) (zeroExtend_of rfl range 64)
    | false => exact congrArg (fun b => Except.ok (Value.i64 b :: rest)) (signExtend_of rfl range 64)
  · refine ⟨_,rfl,fun s rest stack => numeric_run ?_⟩
    rw [stack]
    exact congrArg (fun b => Except.ok (Value.i32 b :: rest)) (truncate_of (by decide))
  · refine ⟨_,rfl,fun s rest stack => ?_⟩
    rw [← stack]
    rfl

theorem masked_low (k : Nat) (x : BitVec 32) (mask : BitVec 32) (small : k < 32) (ones : mask.toNat = 2 ^ k - 1) :
    x &&& mask = (x.setWidth k).setWidth 32 := by
  apply BitVec.eq_of_toNat_eq
  have bound : x.toNat % 2 ^ k < 2 ^ 32 :=
    Nat.lt_of_lt_of_le (Nat.mod_lt _ (Nat.two_pow_pos k)) (Nat.pow_le_pow_right (by decide) (Nat.le_of_lt small))
  rw [BitVec.toNat_and,ones,Nat.and_two_pow_sub_one_eq_mod,BitVec.toNat_setWidth,BitVec.toNat_setWidth,
    Nat.mod_eq_of_lt bound]

theorem reduced_low (t : IntType) (small : t.bits ≤ 32) (z : Int) :
    BitVec.ofInt t.bits (t.wrap z) = (BitVec.ofInt 32 z).setWidth t.bits := by
  rw [ofInt_wrap,truncate_of small]

theorem canonical_wrapped (t : Scalar) (small : t.values.bits < 32) (z : Int) :
    t.canonical (t.values.wrap z) =
      .i32 (if t.values.unsigned then ((BitVec.ofInt 32 z).setWidth t.values.bits).setWidth 32
        else ((BitVec.ofInt 32 z).setWidth t.values.bits).signExtend 32) := by
  have narrow := reduced_low t.values (Nat.le_of_lt small) z
  have range := wrap_range (t := t.values) (z := z)
  rw [canonical_width,Scalar.width,if_neg (by omega),← narrow]
  by_cases unsigned : t.values.unsigned = true
  · rw [if_pos unsigned,zeroExtend_of unsigned range]
    rfl
  · rw [if_neg unsigned,signExtend_of (Bool.not_eq_true _ ▸ unsigned) range]
    rfl

-- narrow() reduces to 8 or 16 bits and extends again.
theorem narrow_run (t : Scalar) (plain : OrdinaryScalar t) (small : t.values.bits < 32)
    (stack : s.stack = represent 32 z :: rest) :
    execAll M (narrow t.ty) s = .ok {s with stack := t.canonical (t.values.wrap z) :: rest} := by
  have size := plain.size
  rw [canonical_wrapped t small,narrow,if_neg (by rw [plain.notBool]; decide),(plain.short small).2]
  obtain ⟨x,top⟩ : ∃ x, x = BitVec.ofInt 32 z := ⟨_,rfl⟩
  have stack : s.stack = .i32 x :: rest := top ▸ stack
  rw [← top]
  rcases plain.bits with eight | sixteen | large | large
  · have one : t.ty.size ilp32 = 1 := by omega
    rw [one,eight]
    cases t.values.unsigned with
    | true =>
      show execAll M (i32c 255 ++ op (.i32 .and)) s = .ok {s with stack := .i32 ((x.setWidth 8).setWidth 32) :: rest}
      rw [← masked_low 8 x 255 (by decide) rfl]
      refine append_done (i32c_run 255) (numeric_run ?_)
      rw [State.push,stack]
      rfl
    | false =>
      refine numeric_run ?_
      rw [stack]
      rfl
  · have two : t.ty.size ilp32 = 2 := by omega
    rw [two,sixteen]
    cases t.values.unsigned with
    | true =>
      show execAll M (i32c 65535 ++ op (.i32 .and)) s = .ok {s with stack := .i32 ((x.setWidth 16).setWidth 32) :: rest}
      rw [← masked_low 16 x 65535 (by decide) rfl]
      refine append_done (i32c_run 65535) (numeric_run ?_)
      rw [State.push,stack]
      rfl
    | false =>
      refine numeric_run ?_
      rw [stack]
      rfl
  · omega
  · omega

theorem toBool_run (range : (IntType.mk n u).InRange z) (source : n = 32 ∨ n = 64)
    (stack : s.stack = represent n z :: rest) :
    execAll M (toBool (some (classOf n))) s = .ok {s with stack := represent 32 (truth (z != 0)) :: rest} := by
  have zero := ofInt_zero_iff range
  have nonzero : (BitVec.ofInt n z != 0) = (z != 0) := by
    rw [Bool.eq_iff_iff,bne_iff_ne,bne_iff_ne,ne_eq,ne_eq,zero]
  rw [represent_truth,← nonzero]
  rcases source with rfl | rfl
  · refine append_done (i32c_run 0) (numeric_run ?_)
    rw [State.push,stack]
    rfl
  · refine append_done (i64c_run 0) (numeric_run ?_)
    rw [State.push,stack]
    rfl

-- Where cast() does not narrow, the value is already one of the target type.
theorem unnarrowed (source target : Scalar) (plain : OrdinaryScalar target) (small : target.values.bits < 32)
    (range : source.values.InRange z) (size : source.ty.size ilp32 ≤ target.ty.size ilp32)
    (same : source.ty.isUnsigned = target.ty.isUnsigned) : target.values.InRange z := by
  have bits := plain.bits
  rcases bool_or_ordinary source with ⟨_,values⟩ | plain'
  · rw [values] at range
    obtain ⟨ty,⟨bits',u⟩,known⟩ := target
    dsimp only at bits small ⊢
    rcases bool_values range with rfl | rfl <;> rcases bits with rfl | rfl | rfl | rfl <;> cases u <;> decide
  · have size' := plain'.size
    have size'' := plain.size
    have bits' := plain'.bits
    have signs : source.values.unsigned = target.values.unsigned := by
      rw [← (plain.short small).2,← (plain'.short (by omega)).2,same]
    have wide : (IntType.mk target.values.bits source.values.unsigned).InRange z :=
      widened (n := source.values.bits) range (by omega) (by omega)
    rwa [signs] at wide

theorem converted_range (target : Scalar) : target.values.InRange (target.converted z) := by
  unfold Scalar.converted
  rcases bool_or_ordinary target with ⟨bool,values⟩ | plain
  · rw [if_pos (by rw [bool]; rfl),values]
    cases z != 0 <;> decide
  · rw [if_neg (by rw [plain.notBool]; decide)]
    exact wrap_range

theorem class_nonfloat (t : Scalar) : isFloatClass (some (classOf t.width)) = false := by
  rcases width_either t with width | width <;> rw [width] <;> rfl

-- cast() to a type that is not _Bool: a conversion of the class, and narrow() where it is needed.
theorem cast_plain (source target : Scalar) (plain : OrdinaryScalar target) {code : Code}
    (made : convert (some (classOf source.width)) (some (classOf target.width)) source.extension = .ok code) :
    cast (some source.ty) target.ty = .ok
      (if some (classOf target.width) = some .i32 ∧ target.ty.isInteger = true ∧ target.ty.size ilp32 < 4 ∧
          (source.ty.size ilp32 > target.ty.size ilp32 ∨ some (classOf source.width) ≠ some .i32 ∨
            source.ty.isUnsigned ≠ target.ty.isUnsigned)
        then code ++ narrow target.ty else code) := by
  have notVoid : ¬target.ty.isVoid = true := by rw [plain.notVoid]; decide
  have notBool : ¬target.ty.isBool = true := by rw [plain.notBool]; decide
  unfold cast
  rw [scalar_class source,scalar_class target]
  dsimp only
  rw [if_neg notVoid,if_neg notBool,class_nonfloat,Bool.false_and,if_neg (by decide)]
  unfold Scalar.extension at made
  rw [made]
  show (if _ then _ else _) = _
  split <;> rfl

theorem cast_run (source target : Scalar) (range : source.values.InRange z) :
    ∃ code, cast (some source.ty) target.ty = .ok code ∧
      ∀ (s : State) (rest : List Value), s.stack = source.canonical z :: rest →
        execAll M code s = .ok {s with stack := target.canonical (target.converted z) :: rest} := by
  have extended := scalar_extends source range
  rcases bool_or_ordinary target with ⟨bool,values⟩ | plain
  · refine ⟨toBool (some (classOf source.width)),?_,fun s rest stack => ?_⟩
    · unfold cast
      rw [scalar_class source,bool]
      rfl
    · rw [canonical_width] at stack
      rw [toBool_run extended (width_either source) stack,Scalar.canonical,Scalar.converted,bool,values]
      rfl
  · obtain ⟨code,made,ran⟩ :=
      convert_run (M := M) extended (width_either source) (width_either target)
    have wrapped : target.converted z = target.values.wrap z := if_neg (by rw [plain.notBool]; decide)
    refine ⟨_,cast_plain source target plain made,fun s rest stack => ?_⟩
    rw [canonical_width] at stack
    have after := ran s rest stack
    rw [wrapped]
    split
    · next narrowed =>
      have size := plain.size
      have small : target.values.bits < 32 := by omega
      have class_ : target.width = 32 := if_neg (by omega)
      rw [class_] at after
      exact append_done after (narrow_run target plain small rfl)
    · next kept =>
      rw [after]
      have same : represent target.width z = target.canonical (target.values.wrap z) := by
        rw [canonical_width]
        by_cases small : target.values.bits < 32
        · have width : target.width = 32 := if_neg (by omega)
          have size := plain.size
          have integer := (plain.short small).1
          rw [width] at kept
          have omitted := fun reason => kept ⟨rfl,integer,by omega,reason⟩
          have sizes : source.ty.size ilp32 ≤ target.ty.size ilp32 :=
            Nat.le_of_not_gt fun larger => omitted (.inl larger)
          have signs : source.ty.isUnsigned = target.ty.isUnsigned :=
            Decidable.byContradiction fun differs => omitted (.inr (.inr differs))
          have inside : target.values.wrap z = z := unnarrowed source target plain small range sizes signs
          rw [inside]
        · have bits : target.values.bits = target.width := by
            have bits := plain.bits
            unfold Scalar.width
            split <;> omega
          exact (represent_wrap target.width bits (width_either target) z).symm
      rw [same]

end

-- For all types and operands the code of cast() leaves the converted value, in
-- the representation of the target type, and changes nothing else.
theorem integer_conversions (M : Machine) (source target : Scalar) (z : Int) (s : State) (rest : List Value)
    (operand : source.values.InRange z) (stack : s.stack = source.canonical z :: rest) :
    ∃ code, cast (some source.ty) target.ty = .ok code ∧
      execAll M code s = .ok {s with stack := target.canonical (target.converted z) :: rest} ∧
      target.values.InRange (target.converted z) := by
  obtain ⟨code,made,ran⟩ := cast_run (M := M) source target operand
  exact ⟨code,made,ran s rest stack,converted_range target⟩

namespace Controls

def short : Scalar := ⟨.short false,⟨16,false⟩,rfl⟩
def uchar : Scalar := ⟨.char true,⟨8,true⟩,rfl⟩

end Controls

theorem integer_conversions_short :
    Controls.uchar.converted (-2) = 254 ∧
    ∃ code, cast (some (.short false)) (.char true) = .ok code ∧
      execAll Controls.machine code (Controls.frame.push (Controls.short.canonical (-2))) =
        .ok (Controls.frame.push (Controls.uchar.canonical (Controls.uchar.converted (-2)))) ∧
      Controls.uchar.values.InRange (Controls.uchar.converted (-2)) :=
  ⟨rfl,integer_conversions Controls.machine Controls.short Controls.uchar (-2) _ [] (by decide) rfl⟩

end SandboxStack.Cc
