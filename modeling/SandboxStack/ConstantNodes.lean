import SandboxStack.ConstantValues
import SandboxStack.EvalOperators

namespace SandboxStack.Cc
open IntType

-- What the 64 bits the evaluator has for an expression of value `z` are known to
-- be: the value's residue, and the value itself for an exact expression.
structure Holds (n : Node) (t : IntType) (z v : Int) : Prop where
  congruent : v % 2 ^ t.bits = z % 2 ^ t.bits
  exact : exact n = true → v = z
  cast : CastTo n.ty n → v = word t z

section
variable (d : Node → Eval)

def Evaluates (n : Node) (t : IntType) (z : Int) : Prop :=
  ∃ v, eval2 d n = .ok (BitVec.ofInt 64 v) ∧ Holds n t z v

variable {d} {n lhs rhs test yes no : Node} {ty tl tr : Ty} {t t₁ t₂ : IntType} {a b v z : Int} {op : BinaryKind}

theorem constTree_type (tree : constTree n = true) :
    ∃ ty t, n.ty = some ty ∧ Word ty t ∧ ty.isInteger = true := by
  have typed : isConstType n.ty = true := by
    cases n <;> simp only [constTree,Bool.and_eq_true,Bool.false_eq_true] at tree
    · exact tree.1
    · exact tree.1.2
    · exact tree.1.1.2
    · exact tree.1.1.1
  unfold isConstType at typed
  obtain ⟨known,integer⟩ := Bool.and_eq_true_iff.mp typed
  obtain ⟨ty,t,same,word⟩ := isWord_parts known
  rw [same] at integer
  exact ⟨ty,t,same,word,integer⟩

theorem notWide (known : Word ty t) (bits : t.bits = 32) : wideType (some ty) = false := by
  simp [wideType,intTypeOf,known.known,bits]

-- For a type of 8 bytes the residue is all there is to show.
theorem evaluates_settled (known : Word ty t)
    (ran : eval2 d n = .ok (BitVec.ofInt 64 v)) (congruent : v % 2 ^ t.bits = z % 2 ^ t.bits)
    (short : t.bits = 32 → (exact n = true → v = z) ∧ (CastTo n.ty n → v = low z)) : Evaluates d n t z := by
  rcases known.wide with bits | bits
  · refine ⟨v,ran,congruent,(short bits).1,fun cast => ?_⟩
    rw [(short bits).2 cast,word,if_pos bits]
  · rw [bits] at congruent
    refine ⟨z,?_,rfl,fun _ => rfl,fun _ => ?_⟩
    · rw [ran,ofInt_congruent.mpr congruent]
    · rw [word,if_neg (by omega)]

theorem num_evaluates (number : Number) (known : Word ty t) (integer : ty.isInteger = true)
    (fits : literalFits (some ty) number.val = true) : Evaluates d (.num (some ty) number) t (t.wrap number.val) := by
  have same : number.val % 2 ^ 64 = t.wrap number.val % 2 ^ 64 := by
    have typed := known.known
    simpa [literalFits,intTypeOf,typed] using fits
  refine ⟨t.wrap number.val,?_,rfl,fun _ => rfl,fun cast => by obtain ⟨_,cast⟩ := cast; cases cast⟩
  rw [eval2,notFlonum rfl integer,if_neg (by decide),ofInt_congruent.mpr same]

theorem Holds.operand (held : Holds n t z v) (cast : CastTo (some ty) n) : v = word t z := by
  obtain ⟨e,rfl⟩ := cast
  exact held.cast ⟨e,rfl⟩

theorem neg_evaluates (known : Word ty t) (integer : ty.isInteger = true) (cast : CastTo (some ty) lhs)
    (value : cvalue lhs = .ok a) (meaning : cvalue (.unary .neg (some ty) lhs) = .ok z)
    (same : z = t.wrap (-a)) (operand : Evaluates d lhs t a) : Evaluates d (.unary .neg (some ty) lhs) t z := by
  obtain ⟨v,ran,held⟩ := operand
  have left := held.operand cast
  have negated : -v ≡ -a [ZMOD 2 ^ t.bits] := Int.ModEq.neg held.congruent
  refine evaluates_settled (v := -v) known ?_ ?_ fun bits => ⟨fun exactly => ?_,fun ⟨_,wrong⟩ => by cases wrong⟩
  · rw [eval_unary integer ran,BitVec.ofInt_neg]
  · rw [same,wrap_congruent]
    exact negated
  · rw [word,if_pos bits] at left
    simpa [exact,notWide known bits,valueOf_ok value,valueOf_ok meaning,← left] using exactly

theorem bitnot_evaluates (known : Word ty t) (integer : ty.isInteger = true) (range : t.InRange a)
    (same : z = t.wrap (-a - 1)) (operand : Evaluates d lhs t a) : Evaluates d (.unary .bitnot (some ty) lhs) t z := by
  obtain ⟨v,ran,held⟩ := operand
  have negated : -v - 1 ≡ -a - 1 [ZMOD 2 ^ t.bits] := (Int.ModEq.neg held.congruent).sub rfl
  refine evaluates_settled (v := -v - 1) known ?_ ?_ fun bits => ⟨fun exactly => ?_,fun ⟨_,wrong⟩ => by cases wrong⟩
  · rw [eval_unary integer ran,ofInt_not,show (-1 : U64) = BitVec.allOnes 64 from rfl,BitVec.xor_allOnes]
  · rw [same,wrap_congruent]
    exact negated
  · have parts : signedWord (some ty) = true ∧ exact lhs = true := by
      simpa [exact,notWide known bits] using exactly
    have signed : t.unsigned = false := by simpa [signedWord,intTypeOf,known.known,bits] using parts.1
    have inside : t.InRange (-a - 1) := by
      rw [range_signed signed (by omega)] at range ⊢
      omega
    rw [same,inside,held.exact parts.2]

-- A value is zero in 64 bits exactly when it is zero, if the operand may be tested.
theorem zero_tested (range : t.InRange a) (wide : t.bits = 32 ∨ t.bits = 64) (value : cvalue n = .ok a)
    (tested : testable n = true) (held : Holds n t a v) : BitVec.ofInt 64 v = 0 ↔ a = 0 := by
  constructor
  · intro zero
    have divides : v % 2 ^ 64 = 0 % 2 ^ 64 := ofInt_congruent.mp zero
    have residue : v % 2 ^ t.bits = 0 % 2 ^ t.bits := by rcases wide with bits | bits <;> rw [bits] <;> omega
    rw [← ofInt_zero_iff range]
    exact ofInt_congruent.mpr (held.congruent.symm.trans residue)
  · intro zero
    have exactly : exact n = true := by simpa [testable,valueOf_ok value,zero] using tested
    rw [held.exact exactly,zero]
    rfl

theorem truth_evaluates (p : Bool) (ran : eval2 d n = .ok (hostTruth p)) (other : ¬CastTo n.ty n) : Evaluates d n t (truth p) :=
  ⟨truth p,by rw [ran,hostTruth_of],rfl,fun _ => rfl,fun cast => absurd cast other⟩

theorem not_evaluates (range : t₁.InRange a)
    (wide : t₁.bits = 32 ∨ t₁.bits = 64) (value : cvalue lhs = .ok a) (tested : testable lhs = true)
    (operand : Evaluates d lhs t₁ a) : Evaluates d (.unary .not (some (.int false)) lhs) t (truth (a == 0)) := by
  obtain ⟨v,ran,held⟩ := operand
  have zero := zero_tested range wide value tested held
  refine truth_evaluates _ ?_ (by rintro ⟨_,wrong⟩; cases wrong)
  have same : (BitVec.ofInt 64 v == 0) = (a == 0) := by rw [Bool.eq_iff_iff,beq_iff_eq,beq_iff_eq,zero]
  rw [eval_unary rfl ran,← same]

theorem cast_evaluates {t₁ : IntType} (known : Word ty t) (integer : ty.isInteger = true)
    (wide : t₁.bits = 32 ∨ t₁.bits = 64) (meaning : cvalue (.unary .cast (some ty) lhs) = .ok z) (same : z = t.wrap a)
    (converted : wideType (some ty) = true → exact lhs = true)
    (operand : Evaluates d lhs t₁ a) : Evaluates d (.unary .cast (some ty) lhs) t z := by
  obtain ⟨v,ran,held⟩ := operand
  have ran : eval2 d (.unary .cast (some ty) lhs) = .ok (BitVec.ofInt 64 (word t v)) := by
    rw [eval_unary integer ran]
    exact congrArg _ (evalCast_word known integer v)
  have range : t.InRange z := same ▸ wrap_range
  rcases known.wide with bits | bits
  · have residue : low v = low a := by
      have congruent := held.congruent
      unfold low
      rcases wide with short | long
      · rwa [short] at congruent
      · rw [long] at congruent; omega
    have result : word t v = low z := by
      have congruent := wrap_congruent (t := t) (z := a)
      rw [bits,← same] at congruent
      rw [word,if_pos bits,residue]
      exact congruent.symm
    refine evaluates_settled known ran ?_ fun _ => ⟨fun exactly => ?_,fun _ => result⟩
    · rw [result,bits]
      exact Int.emod_emod_of_dvd _ (Int.dvd_refl _)
    · have nonneg : 0 ≤ z := by simpa [exact,notWide known bits,valueOf_ok meaning] using exactly
      have whole := word_nonneg known.wide range fun _ _ => nonneg
      rw [word,if_pos bits] at whole
      rw [result,whole]
  · have long : wideType (some ty) = true := by simp [wideType,intTypeOf,known.known,bits]
    have settled := held.exact (converted long)
    refine evaluates_settled known ran ?_ fun short => by omega
    rw [word,if_neg (by omega),settled,same,wrap_congruent]

-- Operators whose result on the residues is congruent to their value.
theorem modular_evaluates (known : Word ty t) (integer : ty.isInteger = true) (left : lhs.ty = some ty)
    (castL : CastTo (some ty) lhs) (castR : CastTo (some ty) rhs) (valueL : cvalue lhs = .ok a)
    (valueR : cvalue rhs = .ok b) (f : Int → Int → Int) (rule : op.rule = .arithmetic)
    (host : ∀ x y, evalBinary op ty ty (BitVec.ofInt 64 x) (BitVec.ofInt 64 y) = .ok (BitVec.ofInt 64 (f x y)))
    (modular : ∀ {m x x' y y' : Int}, x ≡ x' [ZMOD m] → y ≡ y' [ZMOD m] → f x y ≡ f x' y' [ZMOD m])
    (exactly : wideType (some ty) = false → exact (.binary op (some ty) lhs rhs) = true →
      f (low (valueOf lhs)) (low (valueOf rhs)) = z)
    (same : z = t.wrap (f a b)) (one : Evaluates d lhs t a) (two : Evaluates d rhs t b) :
    Evaluates d (.binary op (some ty) lhs rhs) t z := by
  obtain ⟨x,ranL,heldL⟩ := one
  obtain ⟨y,ranR,heldR⟩ := two
  have operandL := heldL.operand castL
  have operandR := heldR.operand castR
  refine evaluates_settled (v := f x y) known ?_ ?_ fun bits => ⟨fun precise => ?_,fun ⟨_,wrong⟩ => by cases wrong⟩
  · rw [eval_binary integer left (.inl rule) ranL ranR,host]
  · rw [same,wrap_congruent]
    exact modular heldL.congruent heldR.congruent
  · rw [operandL,operandR,word,word,if_pos bits,if_pos bits]
    have result := exactly (notWide known bits) precise
    rwa [valueOf_ok valueL,valueOf_ok valueR] at result

theorem zeroExtend_word (short : t.bits = 32) (z : Int) :
    BitVec.ofInt 64 (word t z) = (BitVec.ofInt 32 z).setWidth 64 := by
  rw [word,if_pos short,← low_word,truncate_of (by decide)]

-- Bitwise operators, on operands extended by zeros.
theorem bitwise_evaluates (known : Word ty t) (integer : ty.isInteger = true) (left : lhs.ty = some ty)
    (castL : CastTo (some ty) lhs) (castR : CastTo (some ty) rhs) (rule : op.rule = .arithmetic)
    (f : (w : Nat) → BitVec w → BitVec w → BitVec w)
    (host : ∀ x y, evalBinary op ty ty x y = .ok (f 64 x y))
    (extended : ∀ x y : BitVec 32, f 64 (x.setWidth 64) (y.setWidth 64) = (f 32 x y).setWidth 64)
    (exactly : wideType (some ty) = false → exact (.binary op (some ty) lhs rhs) = true → 0 ≤ z)
    (same : z = bitwise t (f t.bits) a b) (one : Evaluates d lhs t a) (two : Evaluates d rhs t b) :
    Evaluates d (.binary op (some ty) lhs rhs) t z := by
  obtain ⟨x,ranL,heldL⟩ := one
  obtain ⟨y,ranR,heldR⟩ := two
  have ran := eval_binary integer left (.inl rule) ranL ranR
  rw [host,heldL.operand castL,heldR.operand castR] at ran
  have range : t.InRange z := same ▸ value_range
  rcases known.wide with bits | bits
  · rw [zeroExtend_word bits,zeroExtend_word bits,extended] at ran
    have result : (f 32 (BitVec.ofInt 32 a) (BitVec.ofInt 32 b)).setWidth 64 = BitVec.ofInt 64 (word t z) := by
      have back : BitVec.ofInt t.bits z = f t.bits (BitVec.ofInt t.bits a) (BitVec.ofInt t.bits b) := by
        rw [same,bitwise,ofInt_value]
      rw [bits] at back
      rw [zeroExtend_word bits,back]
    refine evaluates_settled known (ran.trans (congrArg _ result)) (word_congruent t z)
      fun _ => ⟨fun precise => ?_,fun wrong => ?_⟩
    · exact word_nonneg known.wide range fun _ _ => exactly (notWide known bits) precise
    · obtain ⟨_,wrong⟩ := wrong
      cases wrong
  · refine evaluates_settled (v := z) known ?_ rfl fun short => by omega
    have back : BitVec.ofInt t.bits z = f t.bits (BitVec.ofInt t.bits a) (BitVec.ofInt t.bits b) := by
      rw [same,bitwise,ofInt_value]
    rw [bits] at back
    rw [ran,back,word,word,if_neg (by omega),if_neg (by omega)]

-- An operator whose 64-bit result is its value.
theorem settled_evaluates (ran : eval2 d n = .ok (BitVec.ofInt 64 z)) (other : ¬CastTo n.ty n) : Evaluates d n t z :=
  ⟨z,ran,rfl,fun _ => rfl,fun cast => absurd cast other⟩

theorem notCast_binary {ty' : Option Ty} : ¬CastTo ty' (.binary op ty' lhs rhs) := by
  rintro ⟨_,wrong⟩
  cases wrong

theorem division_evaluates (known : Word ty t) (integer : ty.isInteger = true) (left : lhs.ty = some ty)
    (castL : CastTo (some ty) lhs) (castR : CastTo (some ty) rhs) (rule : op = .div ∨ op = .mod)
    (rangeL : t.InRange a) (rangeR : t.InRange b) (meaning : arithmetic true t op a b = .ok z)
    (nonneg : t.bits = 32 → t.unsigned = false → 0 ≤ a ∧ 0 ≤ b)
    (one : Evaluates d lhs t a) (two : Evaluates d rhs t b) :
    Evaluates d (.binary op (some ty) lhs rhs) t z := by
  obtain ⟨x,ranL,heldL⟩ := one
  obtain ⟨y,ranR,heldR⟩ := two
  have operandL := heldL.operand castL
  have operandR := heldR.operand castR
  rw [word_nonneg known.wide rangeL fun bits signed => (nonneg bits signed).1] at operandL
  rw [word_nonneg known.wide rangeR fun bits signed => (nonneg bits signed).2] at operandR
  subst operandL
  subst operandR
  have wideL := embed_range known.wide rangeL
  have wideR := embed_range known.wide rangeR
  have sign := integer_unsigned known integer
  have quotient : ∀ outside : ¬(t.unsigned = false ∧ t.wrap (x.tdiv y) ≠ x.tdiv y),
      (IntType.mk 64 t.unsigned).InRange (x.tdiv y) := by
    intro outside
    refine embed_range known.wide ?_
    cases unsigned : t.unsigned with
    | true => exact (truncated_range unsigned rangeL rangeR).1
    | false => exact by_contra fun wrong => outside ⟨unsigned,wrong⟩
  refine settled_evaluates ?_ notCast_binary
  rcases rule with rfl | rfl
  · rw [eval_binary integer left (.inl rfl) ranL ranR]
    unfold arithmetic at meaning
    dsimp only at meaning
    split at meaning
    · cases meaning
    · rename_i safe
      cases meaning
      rw [not_or] at safe
      show hostDivide _ _ _ = _
      rw [sign]
      exact hostDivide_exact wideL wideR safe.1 (quotient safe.2)
  · rw [eval_binary integer left (.inl rfl) ranL ranR]
    unfold arithmetic at meaning
    dsimp only at meaning
    split at meaning
    · cases meaning
    · rename_i nonzero
      split at meaning
      · cases meaning
      · rename_i safe
        cases meaning
        show hostModulo _ _ _ = _
        rw [sign]
        exact hostModulo_exact wideL wideR nonzero (quotient fun wrong => safe ⟨rfl,wrong⟩)

theorem count_parts (shift : op = .shl ∨ op = .shr) (meaning : arithmetic true t op a b = .ok z) :
    0 ≤ b ∧ b < t.bits ∧ z = if op = .shl then t.wrap (a * 2 ^ b.toNat) else a / 2 ^ b.toNat := by
  rcases shift with rfl | rfl <;> unfold arithmetic at meaning <;> dsimp only at meaning <;> split at meaning
  · cases meaning
  · refine ⟨by omega,by omega,?_⟩
    rw [if_pos rfl,reduce_value meaning]
  · cases meaning
  · cases meaning
    exact ⟨by omega,by omega,(if_neg (by decide)).symm⟩

theorem shl_evaluates (known : Word ty t) (integer : ty.isInteger = true) (left : lhs.ty = some ty)
    (valueL : cvalue lhs = .ok a) (valueR : cvalue rhs = .ok b) (value : cvalue (.binary .shl (some ty) lhs rhs) = .ok z)
    (meaning : arithmetic true t .shl a b = .ok z) (counted : exact rhs = true)
    (one : Evaluates d lhs t a) (two : Evaluates d rhs t₂ b) : Evaluates d (.binary .shl (some ty) lhs rhs) t z := by
  obtain ⟨x,ranL,heldL⟩ := one
  obtain ⟨y,ranR,heldR⟩ := two
  obtain ⟨least,most,same⟩ := count_parts (.inl rfl) meaning
  rw [if_pos rfl] at same
  have within : b < 64 := by rcases known.wide with bits | bits <;> omega
  rw [heldR.exact counted] at ranR
  refine evaluates_settled (v := x * 2 ^ b.toNat) known ?_ ?_ fun bits => ⟨fun precise => ?_,fun ⟨_,wrong⟩ => by cases wrong⟩
  · rw [eval_binary integer left (.inr (.inr rfl)) ranL ranR,ofInt_shift]
    exact hostShift_exact _ _ least within
  · rw [same,wrap_congruent]
    exact Int.ModEq.mul_right _ heldL.congruent
  · have parts : exact lhs = true ∧ a * 2 ^ b.toNat = z := by
      simpa [exact,notWide known bits,valueOf_ok valueL,valueOf_ok valueR,valueOf_ok value] using precise
    rw [heldL.exact parts.1,parts.2]

theorem shr_evaluates (known : Word ty t) (integer : ty.isInteger = true) (left : lhs.ty = some ty)
    (range : t.InRange a) (meaning : arithmetic true t .shr a b = .ok z) (shifted : exact lhs = true)
    (counted : exact rhs = true) (one : Evaluates d lhs t a) (two : Evaluates d rhs t₂ b) :
    Evaluates d (.binary .shr (some ty) lhs rhs) t z := by
  obtain ⟨x,ranL,heldL⟩ := one
  obtain ⟨y,ranR,heldR⟩ := two
  obtain ⟨least,most,same⟩ := count_parts (.inr rfl) meaning
  rw [if_neg (by decide)] at same
  have within : b < 64 := by rcases known.wide with bits | bits <;> omega
  rw [heldR.exact counted] at ranR
  rw [heldL.exact shifted] at ranL
  refine settled_evaluates ?_ notCast_binary
  rw [eval_binary integer left (.inr (.inr rfl)) ranL ranR,same]
  have sign := integer_unsigned known integer
  have size := known.size
  unfold evalBinary
  dsimp only
  split
  · rename_i logical
    have wide : t = ⟨64,true⟩ := by
      obtain ⟨bits,u⟩ := t
      dsimp only at sign size
      rw [← sign,logical.1,← size,logical.2]
    subst wide
    rw [hostShift_exact _ _ least within]
    exact congrArg _ (ofInt_ushift rfl range _).symm
  · rename_i arithmetic
    have inside : (IntType.mk 64 false).InRange a := by
      obtain ⟨bits,u⟩ := t
      dsimp only at sign size
      rcases known.wide with short | long
      · dsimp only at short
        subst short
        cases u with
        | true =>
          rw [range_unsigned rfl] at range
          rw [range_signed rfl (by decide)]
          dsimp only at range ⊢
          omega
        | false => exact embed_range (.inl rfl) range
      · dsimp only at long
        subst long
        cases u with
        | true => exact absurd ⟨sign,by omega⟩ arithmetic
        | false => exact range
    rw [hostShift_exact _ _ least within]
    exact congrArg _ (ofInt_sshift rfl inside _).symm

-- The order of the residues is the order of the values unless one of two signed values of 4 bytes is negative.
theorem compare_words (wide : t.bits = 32 ∨ t.bits = 64) (rangeL : t.InRange a) (rangeR : t.InRange b)
    (rule : op.rule = .comparison)
    (signs : op = .lt ∨ op = .le → t.bits = 32 → t.unsigned = false → (0 ≤ a ↔ 0 ≤ b)) {r : IntType} :
    arithmetic true r op (word t a) (word t b) = arithmetic true r op a b := by
  obtain ⟨bits,u⟩ := t
  rcases wide with rfl | rfl
  · unfold word low
    dsimp only
    rw [if_pos rfl,if_pos rfl]
    cases u with
    | true =>
      rw [range_unsigned rfl] at rangeL rangeR
      rw [Int.emod_eq_of_lt rangeL.1 rangeL.2,Int.emod_eq_of_lt rangeR.1 rangeR.2]
    | false =>
      rw [range_signed rfl (by decide)] at rangeL rangeR
      dsimp only at rangeL rangeR
      cases op <;> simp [BinaryKind.rule] at rule <;> simp only [arithmetic] <;> congr 2
      case eq => rw [Bool.eq_iff_iff,beq_iff_eq,beq_iff_eq]; omega
      case ne => rw [Bool.eq_iff_iff,bne_iff_ne,bne_iff_ne]; omega
      case lt =>
        have same := signs (.inl rfl) rfl rfl
        rw [decide_eq_decide]
        omega
      case le =>
        have same := signs (.inr rfl) rfl rfl
        rw [decide_eq_decide]
        omega
  · rfl

theorem comparison_evaluates {r : IntType} (known : Word tl t) (integer : tl.isInteger = true) (left : lhs.ty = some tl)
    (castL : CastTo (some tl) lhs) (castR : CastTo (some tl) rhs) (rule : op.rule = .comparison)
    (rangeL : t.InRange a) (rangeR : t.InRange b) (meaning : arithmetic true r op a b = .ok z)
    (signs : op = .lt ∨ op = .le → t.bits = 32 → t.unsigned = false → (0 ≤ a ↔ 0 ≤ b))
    (one : Evaluates d lhs t a) (two : Evaluates d rhs t b) :
    Evaluates d (.binary op (some (.int false)) lhs rhs) r z := by
  obtain ⟨x,ranL,heldL⟩ := one
  obtain ⟨y,ranR,heldR⟩ := two
  rw [heldL.operand castL] at ranL
  rw [heldR.operand castR] at ranR
  obtain ⟨p,compared,ran⟩ : ∃ p, arithmetic true r op (word t a) (word t b) = .ok (truth p) ∧
      evalBinary op (.int false) tl (BitVec.ofInt 64 (word t a)) (BitVec.ofInt 64 (word t b)) =
        .ok (BitVec.ofInt 64 (truth p)) :=
    evalCompare_exact (word_range known.wide rangeL) (word_range known.wide rangeR) (integer_unsigned known integer) rule
  rw [compare_words known.wide rangeL rangeR rule signs,meaning] at compared
  cases compared
  refine settled_evaluates ?_ notCast_binary
  rw [eval_binary rfl left (.inr (.inl rule)) ranL ranR,ran]

theorem logand_evaluates {u : IntType} (integer : ty.isInteger = true) (rangeL : t₁.InRange a) (wideL : t₁.bits = 32 ∨ t₁.bits = 64)
    (valueL : cvalue lhs = .ok a) (testedL : testable lhs = true) (one : Evaluates d lhs t₁ a)
    (rest : a ≠ 0 → u.InRange b ∧ (u.bits = 32 ∨ u.bits = 64) ∧ cvalue rhs = .ok b ∧ testable rhs = true ∧
      Evaluates d rhs u b) :
    Evaluates d (.binary .logand (some ty) lhs rhs) t (if a = 0 then 0 else truth (b != 0)) := by
  obtain ⟨x,ranL,heldL⟩ := one
  have integral : flonumTyped (.binary .logand (some ty) lhs rhs) = false := notFlonum rfl integer
  have zeroL := zero_tested rangeL wideL valueL testedL heldL
  by_cases zero : a = 0
  · rw [if_pos zero]
    refine truth_evaluates false ?_ notCast_binary
    simp only [eval2,integral,ranL]
    exact if_pos (zeroL.mpr zero)
  · obtain ⟨rangeR,wideR,valueR,testedR,y,ranR,heldR⟩ := rest zero
    have zeroR := zero_tested rangeR wideR valueR testedR heldR
    rw [if_neg zero]
    refine truth_evaluates _ ?_ notCast_binary
    have same : (BitVec.ofInt 64 y != 0) = (b != 0) := by rw [Bool.eq_iff_iff,bne_iff_ne,bne_iff_ne,ne_eq,ne_eq,zeroR]
    simp only [eval2,integral,ranL,ranR,← same]
    exact if_neg (zeroL.not.mpr zero)

theorem logor_evaluates {u : IntType} (integer : ty.isInteger = true) (rangeL : t₁.InRange a) (wideL : t₁.bits = 32 ∨ t₁.bits = 64)
    (valueL : cvalue lhs = .ok a) (testedL : testable lhs = true) (one : Evaluates d lhs t₁ a)
    (rest : a = 0 → u.InRange b ∧ (u.bits = 32 ∨ u.bits = 64) ∧ cvalue rhs = .ok b ∧ testable rhs = true ∧
      Evaluates d rhs u b) :
    Evaluates d (.binary .logor (some ty) lhs rhs) t (if a ≠ 0 then 1 else truth (b != 0)) := by
  obtain ⟨x,ranL,heldL⟩ := one
  have integral : flonumTyped (.binary .logor (some ty) lhs rhs) = false := notFlonum rfl integer
  have zeroL := zero_tested rangeL wideL valueL testedL heldL
  by_cases zero : a = 0
  · obtain ⟨rangeR,wideR,valueR,testedR,y,ranR,heldR⟩ := rest zero
    have zeroR := zero_tested rangeR wideR valueR testedR heldR
    rw [if_neg (not_not.mpr zero)]
    refine truth_evaluates _ ?_ notCast_binary
    have same : (BitVec.ofInt 64 y != 0) = (b != 0) := by rw [Bool.eq_iff_iff,bne_iff_ne,bne_iff_ne,ne_eq,ne_eq,zeroR]
    simp only [eval2,integral,ranL,ranR,← same]
    exact if_neg (not_not.mpr (zeroL.mpr zero))
  · rw [if_pos zero]
    refine truth_evaluates true ?_ notCast_binary
    simp only [eval2,integral,ranL]
    exact if_pos (zeroL.not.mpr zero)

theorem comma_evaluates (known : Word ty t) (integer : ty.isInteger = true)
    (two : Evaluates d rhs t z) : Evaluates d (.binary .comma (some ty) lhs rhs) t z := by
  obtain ⟨v,ran,held⟩ := two
  have integral : flonumTyped (.binary .comma (some ty) lhs rhs) = false := notFlonum rfl integer
  refine evaluates_settled known ?_ held.congruent fun bits => ⟨fun precise => held.exact ?_,fun wrong => absurd wrong notCast_binary⟩
  · simp only [eval2,integral]
    exact ran
  · simpa [exact,notWide known bits] using precise

theorem cond_evaluates (known : Word ty t) (integer : ty.isInteger = true) (rangeC : t₁.InRange a)
    (wideC : t₁.bits = 32 ∨ t₁.bits = 64) (valueC : cvalue test = .ok a) (tested : testable test = true)
    (condition : Evaluates d test t₁ a) (chosen : Evaluates d (if a ≠ 0 then yes else no) t z) :
    Evaluates d (.cond (some ty) test yes no) t z := by
  obtain ⟨x,ranC,heldC⟩ := condition
  obtain ⟨v,ran,held⟩ := chosen
  have integral : flonumTyped (.cond (some ty) test yes no) = false := notFlonum rfl integer
  have zeroC := zero_tested rangeC wideC valueC tested heldC
  refine evaluates_settled known ?_ held.congruent fun bits => ⟨fun precise => held.exact ?_,?_⟩
  · simp only [eval2,integral,ranC]
    by_cases zero : a = 0
    · rw [if_neg (not_not.mpr zero)] at ran
      exact (if_neg (not_not.mpr (zeroC.mpr zero))).trans ran
    · rw [if_pos zero] at ran
      exact (if_pos (zeroC.not.mpr zero)).trans ran
  · rw [exact,notWide known bits,valueOf_ok valueC] at precise
    by_cases zero : a = 0
    · rw [if_neg (not_not.mpr zero)]
      simpa [zero] using precise
    · rw [if_pos zero]
      simpa [zero] using precise
  · rintro ⟨_,wrong⟩
    cases wrong

end

end SandboxStack.Cc
