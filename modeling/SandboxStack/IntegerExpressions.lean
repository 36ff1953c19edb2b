import SandboxStack.GenExpr
import SandboxStack.TypedTrees

namespace SandboxStack.Cc
open Wasm LinearMemory LittleEndian IntType

-- A C value in a wasm value of 32 or 64 bits: its residue.
def represent (w : Nat) (z : Int) : Value := if w = 64 then .i64 (BitVec.ofInt 64 z) else .i32 (BitVec.ofInt 32 z)

def classOf (w : Nat) : ValueType := if w = 64 then .i64 else .i32

-- A type of the integer expressions, as the numbers the code generator reads from it.
structure Word (ty : Ty) (t : IntType) : Prop where
  known : ty.intType = some t
  wide : t.bits = 32 ∨ t.bits = 64
  vclass : vclass (some ty) = some (classOf t.bits)
  unsigned : (ty.isUnsigned || ty.isPtr) = t.unsigned
  size : ty.size ilp32 * 8 = t.bits
  scalar : ty.isVoid = false ∧ ty.isBool = false ∧ ty.isFlonum = false ∧ ty.isArray = false ∧ ty.isStruct = false ∧
    ty.isVla = false

theorem isWord_parts {ty : Option Ty} (word : isWord ty = true) : ∃ ty' t, ty = some ty' ∧ Word ty' t := by
  cases ty with
  | none => simp [isWord,intTypeOf] at word
  | some ty =>
    cases ty <;> simp [isWord,intTypeOf,Ty.intType] at word
    case int u => exact ⟨_,⟨32,u⟩,rfl,rfl,.inl rfl,rfl,by simp [Ty.isUnsigned,Ty.isPtr],rfl,by simp [Ty.isVoid,Ty.isBool,Ty.isFlonum,Ty.isArray,Ty.isStruct,Ty.isVla]⟩
    case long u => exact ⟨_,⟨32,u⟩,rfl,rfl,.inl rfl,rfl,by simp [Ty.isUnsigned,Ty.isPtr],rfl,by simp [Ty.isVoid,Ty.isBool,Ty.isFlonum,Ty.isArray,Ty.isStruct,Ty.isVla]⟩
    case llong u => exact ⟨_,⟨64,u⟩,rfl,rfl,.inr rfl,rfl,by simp [Ty.isUnsigned,Ty.isPtr],rfl,by simp [Ty.isVoid,Ty.isBool,Ty.isFlonum,Ty.isArray,Ty.isStruct,Ty.isVla]⟩
    case enum => exact ⟨_,⟨32,false⟩,rfl,rfl,.inl rfl,rfl,rfl,rfl,by simp [Ty.isVoid,Ty.isBool,Ty.isFlonum,Ty.isArray,Ty.isStruct,Ty.isVla]⟩
    case ptr base => exact ⟨_,⟨32,true⟩,rfl,rfl,.inl rfl,rfl,rfl,rfl,by simp [Ty.isVoid,Ty.isBool,Ty.isFlonum,Ty.isArray,Ty.isStruct,Ty.isVla]⟩

-- The C operators as machine operators of one width.
def intBinary (kind : BinaryKind) (u : Bool) : Option IntBinary :=
  match kind with
  | .add => some .add
  | .sub => some .sub
  | .mul => some .mul
  | .div => some (if u then .divU else .divS)
  | .mod => some (if u then .remU else .remS)
  | .bitand => some .and
  | .bitor => some .or
  | .bitxor => some .xor
  | .shl => some .shl
  | .shr => some (if u then .shrU else .shrS)
  | _ => none

def intCompare (kind : BinaryKind) (u : Bool) : Option IntCompare :=
  match kind with
  | .eq => some .eq
  | .ne => some .ne
  | .lt => some (if u then .ltU else .ltS)
  | .le => some (if u then .leU else .leS)
  | _ => none

theorem intOp_parts {kind : BinaryKind} {w u : Bool} {o : NumericOp} (chosen : intOp kind w u = .ok o) :
    (∃ b, intBinary kind u = some b ∧ o = if w then .i64 b else .i32 b) ∨
    (∃ r, intCompare kind u = some r ∧ o = if w then .i64Compare r else .i32Compare r) := by
  cases kind <;> cases chosen <;> cases w <;> cases u <;> simp [intBinary,intCompare]

def Arithmetic (e : Stop) : Prop := e = .divideByZero ∨ e = .integerOverflow

-- A machine operator on residues agrees with a C result.
def Agrees (t : IntType) (ran : Except Stop (BitVec t.bits)) : CResult Int → Prop
  | .ok z => t.InRange z ∧ ran = .ok (BitVec.ofInt t.bits z)
  | .error .trap => ∃ e, Arithmetic e ∧ ran = .error e
  | .error .undefined => True

section
variable {t : IntType} {strict : Bool} {a b z : Int}

theorem agrees_reduce {v : BitVec t.bits} (same : v = BitVec.ofInt t.bits z) : Agrees t (.ok v) (reduce strict t z) := by
  unfold reduce
  split
  · trivial
  · exact ⟨wrap_range,by rw [same,ofInt_wrap]⟩

theorem eval_divU {w : Nat} {x y : BitVec w} (nonzero : ¬y = 0) : IntBinary.divU.eval x y = .ok (x / y) := if_neg nonzero
theorem eval_remU {w : Nat} {x y : BitVec w} (nonzero : ¬y = 0) : IntBinary.remU.eval x y = .ok (x % y) := if_neg nonzero
theorem eval_remS {w : Nat} {x y : BitVec w} (nonzero : ¬y = 0) : IntBinary.remS.eval x y = .ok (x.srem y) :=
  if_neg nonzero

theorem eval_divS {w : Nat} {x y : BitVec w} (nonzero : ¬y = 0) :
    IntBinary.divS.eval x y =
      if x = BitVec.intMin w ∧ y = -1 then .error .integerOverflow else .ok (x.sdiv y) := if_neg nonzero

theorem agrees_div (sized : 0 < t.bits) (one : t.InRange a) (two : t.InRange b) :
    Agrees t ((if t.unsigned then IntBinary.divU else .divS).eval (BitVec.ofInt t.bits a) (BitVec.ofInt t.bits b))
      (arithmetic strict t .div a b) := by
  by_cases zero : b = 0
  · have divisor := (ofInt_zero_iff two).mpr zero
    have outcome : arithmetic strict t .div a b = .error .trap := if_pos (.inl zero)
    rw [outcome]
    refine ⟨.divideByZero,.inl rfl,?_⟩
    cases t.unsigned <;> exact if_pos divisor
  have divisor := (ofInt_zero_iff two).not.mpr zero
  by_cases fits : t.InRange (a.tdiv b)
  · have outcome : arithmetic strict t .div a b = .ok (a.tdiv b) := if_neg (by
      rintro (null | ⟨_,outside⟩)
      · exact zero null
      · exact outside fits)
    rw [outcome]
    refine ⟨fits,?_⟩
    cases unsigned : t.unsigned with
    | true => exact (eval_divU divisor).trans (by rw [ofInt_udiv unsigned one two])
    | false =>
      have inside := (quotient_overflow unsigned sized one two).not.mp (not_not.mpr fits)
      exact (eval_divS divisor).trans (by rw [if_neg inside,ofInt_sdiv unsigned one two])
  · cases unsigned : t.unsigned with
    | true => exact absurd (truncated_range unsigned one two).1 fits
    | false =>
      have outcome : arithmetic strict t .div a b = .error .trap := if_pos (.inr ⟨unsigned,fits⟩)
      rw [outcome]
      have extreme := (quotient_overflow unsigned sized one two).mp fits
      exact ⟨.integerOverflow,.inr rfl,(eval_divS divisor).trans (if_pos extreme)⟩

theorem agrees_mod (one : t.InRange a) (two : t.InRange b) :
    Agrees t ((if t.unsigned then IntBinary.remU else .remS).eval (BitVec.ofInt t.bits a) (BitVec.ofInt t.bits b))
      (arithmetic strict t .mod a b) := by
  by_cases zero : b = 0
  · have divisor := (ofInt_zero_iff two).mpr zero
    have outcome : arithmetic strict t .mod a b = .error .trap := if_pos zero
    rw [outcome]
    refine ⟨.divideByZero,.inl rfl,?_⟩
    cases t.unsigned <;> exact if_pos divisor
  have divisor := (ofInt_zero_iff two).not.mpr zero
  by_cases overflow : strict = true ∧ t.unsigned = false ∧ t.wrap (a.tdiv b) ≠ a.tdiv b
  · have outcome : arithmetic strict t .mod a b = .error .undefined := (if_neg zero).trans (if_pos overflow)
    rw [outcome]
    trivial
  have outcome : arithmetic strict t .mod a b = .ok (a.tmod b) := (if_neg zero).trans (if_neg overflow)
  rw [outcome]
  refine ⟨tmod_range one two,?_⟩
  cases unsigned : t.unsigned with
  | true => exact (eval_remU divisor).trans (by rw [ofInt_umod unsigned one two])
  | false => exact (eval_remS divisor).trans (by rw [ofInt_srem unsigned one two])

theorem agrees_shl : Agrees t (IntBinary.shl.eval (BitVec.ofInt t.bits a) (BitVec.ofInt t.bits b))
    (arithmetic strict t .shl a b) := by
  by_cases outside : b < 0 ∨ (t.bits : Int) ≤ b
  · have outcome : arithmetic strict t .shl a b = .error .undefined := if_pos outside
    rw [outcome]
    trivial
  · have outcome : arithmetic strict t .shl a b = reduce strict t (a * 2 ^ b.toNat) := if_neg outside
    rw [outcome]
    refine agrees_reduce ?_
    rw [count_exact (by omega) (by omega),ofInt_shift]

theorem agrees_shr (sized : 0 < t.bits) (one : t.InRange a) :
    Agrees t ((if t.unsigned then IntBinary.shrU else .shrS).eval (BitVec.ofInt t.bits a) (BitVec.ofInt t.bits b))
      (arithmetic strict t .shr a b) := by
  by_cases outside : b < 0 ∨ (t.bits : Int) ≤ b
  · have outcome : arithmetic strict t .shr a b = .error .undefined := if_pos outside
    rw [outcome]
    trivial
  · have outcome : arithmetic strict t .shr a b = .ok (a / 2 ^ b.toNat) := if_neg outside
    rw [outcome]
    refine ⟨shift_range sized one _,?_⟩
    have count := count_exact (b := b) (w := t.bits) (by omega) (by omega)
    cases unsigned : t.unsigned with
    | true =>
      simp only [if_true,IntBinary.eval]
      rw [count,ofInt_ushift unsigned one]
    | false =>
      simp only [Bool.false_eq_true,if_false,IntBinary.eval]
      rw [count,ofInt_sshift unsigned one]

theorem agrees_bitwise (f : BitVec t.bits → BitVec t.bits → BitVec t.bits) :
    Agrees t (.ok (f (BitVec.ofInt t.bits a) (BitVec.ofInt t.bits b))) (.ok (bitwise t f a b)) :=
  ⟨value_range,by rw [bitwise,ofInt_value]⟩

-- The left operand is read as a value of the type by all but SUB, the right one by none of SUB and the shifts.
theorem binary_agrees {kind : BinaryKind} {o : IntBinary} (chosen : intBinary kind t.unsigned = some o)
    (sized : 0 < t.bits) (one : kind = .sub ∨ t.InRange a) (two : kind = .sub ∨ kind.rule = .shift ∨ t.InRange b) :
    Agrees t (o.eval (BitVec.ofInt t.bits a) (BitVec.ofInt t.bits b)) (arithmetic strict t kind a b) := by
  cases kind <;> cases chosen <;> simp only [reduceCtorEq,false_or,BinaryKind.rule] at one two
  case add => exact agrees_reduce (BitVec.ofInt_add ..).symm
  case sub => exact agrees_reduce (ofInt_sub _).symm
  case mul => exact agrees_reduce (BitVec.ofInt_mul ..).symm
  case div => exact agrees_div sized one two
  case mod => exact agrees_mod one two
  case bitand => exact agrees_bitwise _
  case bitor => exact agrees_bitwise _
  case bitxor => exact agrees_bitwise _
  case shl => exact agrees_shl
  case shr => exact agrees_shr sized one

theorem compare_agrees {r : IntType} {kind : BinaryKind} {o : IntCompare} (chosen : intCompare kind t.unsigned = some o)
    (one : t.InRange a) (two : t.InRange b) :
    arithmetic strict r kind a b = .ok (truth (o.eval (BitVec.ofInt t.bits a) (BitVec.ofInt t.bits b))) := by
  have equal := ofInt_injective one two
  cases kind <;> cases chosen
  case eq =>
    simp only [arithmetic,IntCompare.eval]
    congr 2
    rw [Bool.eq_iff_iff,beq_iff_eq,beq_iff_eq,equal]
  case ne =>
    simp only [arithmetic,IntCompare.eval]
    congr 2
    rw [Bool.eq_iff_iff,bne_iff_ne,bne_iff_ne,ne_eq,ne_eq,equal]
  case lt =>
    cases unsigned : t.unsigned with
    | true => simp only [arithmetic,if_true,IntCompare.eval,lt_unsigned unsigned one two]
    | false => simp only [arithmetic,Bool.false_eq_true,if_false,IntCompare.eval,lt_signed unsigned one two]
  case le =>
    cases unsigned : t.unsigned with
    | true => simp only [arithmetic,if_true,IntCompare.eval,le_unsigned unsigned one two]
    | false => simp only [arithmetic,Bool.false_eq_true,if_false,IntCompare.eval,le_signed unsigned one two]

end

-- What expression code leaves alone: all but the operand stack, the bytes of
-- the memory and the two scratch locals.
structure Kept (c : Context) (s s' : State) : Prop where
  sp : s'.sp = s.sp
  size : s'.memory.size = s.memory.size
  locals : ∀ i, i ≠ c.t32 → i ≠ c.t64 → s'.locals i = s.locals i

-- Code run from `s` ends with the value of a C result, in `w` bits, on top of
-- `base`, and the memory of the result; or it traps where C divides wrongly.
def Meets (M : Machine) (c : Context) (base : List Value) (s : State) (code : Code) (t : IntType) (w : Nat) :
    CResult (Int × Memory) → Prop
  | .ok (z,m) => t.InRange z ∧
      ∃ s', execAll M code s = .ok s' ∧ s'.stack = represent w z :: base ∧ s'.memory = m ∧ Kept c s s'
  | .error .trap => ∃ e, Arithmetic e ∧ execAll M code s = .error e
  | .error .undefined => True

def Framed (c : Context) (fpv : U32) (s : State) : Prop := s.locals c.fp = .i32 fpv

-- Where a variable is stored when the frame begins at `fpv`.
def placeOf (c : Context) (fpv : U32) (v : Obj) : Nat :=
  if v.isLocal then (fpv + BitVec.ofInt 32 v.offset).toNat
  else match globalAddr c v with
    | .ok a => (BitVec.ofInt 32 a).toNat
    | .error _ => 0

-- Every variable of the expression lies in the memory.
def Stored (place : Obj → Nat) (size : Nat) : Node → Prop
  | .var ty v => ∀ t, intTypeOf ty = some t → place v + t.bits / 8 ≤ size
  | .unary _ _ lhs => Stored place size lhs
  | .binary _ _ lhs rhs => Stored place size lhs ∧ Stored place size rhs
  | .cond _ test yes no => Stored place size test ∧ Stored place size yes ∧ Stored place size no
  | _ => True

section
variable {M : Machine} {c : Context} {base below : List Value} {s s' s'' : State} {code code' : Code} {t t' : IntType}
  {w w' : Nat} {z : Int} {m : Memory} {fpv : U32}

theorem kept_refl : Kept c s s := ⟨rfl,rfl,fun _ _ _ => rfl⟩

theorem Kept.trans (one : Kept c s s') (two : Kept c s' s'') : Kept c s s'' where
  sp := two.sp.trans one.sp
  size := two.size.trans one.size
  locals i scratch scratch' := (two.locals i scratch scratch').trans (one.locals i scratch scratch')

theorem Framed.kept (framed : Framed c fpv s) (kept : Kept c s s') : Framed c fpv s' :=
  (kept.locals c.fp (by simp [Context.fp,Context.t32]) (by simp [Context.fp,Context.t64])).trans framed

theorem meets_done (range : t.InRange z) (ran : execAll M code s = .ok s') (stack : s'.stack = represent w z :: base)
    (memory : s'.memory = m) (kept : Kept c s s') : Meets M c base s code t w (.ok (z,m)) :=
  ⟨range,s',ran,stack,memory,kept⟩

theorem meets_after {r : CResult (Int × Memory)} (ran : execAll M code s = .ok s') (kept : Kept c s s')
    (rest : Meets M c base s' code' t w r) : Meets M c base s (code ++ code') t w r := by
  cases r with
  | ok p =>
    obtain ⟨z,m⟩ := p
    obtain ⟨range,last,done,stack,memory,more⟩ := rest
    exact ⟨range,last,append_done ran done,stack,memory,kept.trans more⟩
  | error e =>
    cases e with
    | trap =>
      obtain ⟨reason,arithmetic,stopped⟩ := rest
      exact ⟨reason,arithmetic,(append_ok ran).trans stopped⟩
    | undefined => trivial

theorem meets_bind {r : CResult (Int × Memory)} {f : Int × Memory → CResult (Int × Memory)}
    (first : Meets M c below s code t' w' r)
    (second : ∀ z m s', t'.InRange z → s'.stack = represent w' z :: below → s'.memory = m → Kept c s s' →
      Meets M c base s' code' t w (f (z,m))) :
    Meets M c base s (code ++ code') t w (r >>= f) := by
  cases r with
  | ok p =>
    obtain ⟨z,m⟩ := p
    obtain ⟨range,middle,ran,stack,memory,kept⟩ := first
    exact meets_after ran kept (second z m middle range stack memory kept)
  | error e =>
    cases e with
    | trap =>
      obtain ⟨reason,arithmetic,stopped⟩ := first
      exact ⟨reason,arithmetic,append_stopped stopped⟩
    | undefined => trivial

theorem numeric_run {o : NumericOp} {z : List Value} (evaluated : o.eval M.floats s.stack = .ok z) :
    execAll M (op o) s = .ok {s with stack := z} := by
  have one : (Plain.numeric o).exec M s = .ok {s with stack := z} := by
    unfold Plain.exec
    dsimp only
    rw [evaluated]
  unfold op
  rw [plain_cons,one]
  rfl

theorem numeric_stops {o : NumericOp} {e : Stop} (evaluated : o.eval M.floats s.stack = .error e) :
    execAll M (op o) s = .error e := by
  have one : (Plain.numeric o).exec M s = .error e := by
    unfold Plain.exec
    dsimp only
    rw [evaluated]
  unfold op
  rw [plain_cons,one]
  rfl

theorem stack_kept (stack : List Value) : Kept c s {s with stack} := ⟨rfl,rfl,fun _ _ _ => rfl⟩

theorem push_kept (v : Value) : Kept c s (s.push v) := stack_kept _

theorem i32c_run (v : Int) : execAll M (i32c v) s = .ok (s.push (represent 32 v)) := rfl
theorem i64c_run (v : Int) : execAll M (i64c v) s = .ok (s.push (represent 64 v)) := rfl

theorem represent_wrap (w : Nat) (wide : t.bits = w) (either : w = 32 ∨ w = 64) (z : Int) :
    represent w (t.wrap z) = represent w z := by
  have same := ofInt_wrap (t := t) (z := z)
  subst wide
  rcases either with bits | bits <;> rw [bits] at same <;> simp [represent,bits,same]

-- A class conversion keeps the value: it extends by the signedness of the type.
theorem convert_meets {r : CResult (Int × Memory)} {converted : Code} (wide : t.bits = 32 ∨ t.bits = 64)
    (target : w = 32 ∨ w = 64) (made : convert (some (classOf t.bits)) (some (classOf w)) t.unsigned = .ok converted)
    (first : Meets M c base s code t t.bits r) : Meets M c base s (code ++ converted) t w r := by
  rw [← bind_pure r]
  refine meets_bind first fun z m s' range stack memory _ => ?_
  have signed := fun plain => signExtend_of (t := t) plain range 64
  have zeroed := fun plain => zeroExtend_of (t := t) plain range 64
  have short := truncate_of (a := z) (v := 64) (w := 32) (by decide)
  obtain ⟨bits,u⟩ := t
  dsimp only at wide signed zeroed made stack
  rcases wide with rfl | rfl <;> rcases target with rfl | rfl <;> cases made
  · exact meets_done range rfl stack memory kept_refl
  · refine meets_done range (numeric_run (z := .i64 (BitVec.ofInt 64 z) :: base) ?_) rfl memory (stack_kept _)
    cases u with
    | true => rw [if_pos rfl,stack,← zeroed rfl]; rfl
    | false => rw [if_neg (by decide),stack,← signed rfl]; rfl
  · refine meets_done range (numeric_run (z := .i32 (BitVec.ofInt 32 z) :: base) ?_) rfl memory (stack_kept _)
    rw [stack,← short]
    rfl
  · exact meets_done range rfl stack memory kept_refl

theorem truth_range {b : Bool} : (IntType.mk 32 false).InRange (truth b) := by
  cases b <;> decide

theorem represent_truth (b : Bool) : represent 32 (truth b) = boolean b := by
  cases b <;> rfl

theorem toBool_meets {r : CResult (Int × Memory)} (wide : t.bits = 32 ∨ t.bits = 64)
    (first : Meets M c base s code t t.bits r) :
    Meets M c base s (code ++ toBool (some (classOf t.bits))) ⟨32,false⟩ 32
      (r >>= fun p => .ok (truth (p.1 != 0),p.2)) := by
  refine meets_bind first fun z m s' range stack memory kept => ?_
  have zero := ofInt_zero_iff range
  have nonzero : (BitVec.ofInt t.bits z != 0) = (z != 0) := by
    rw [Bool.eq_iff_iff,bne_iff_ne,bne_iff_ne,ne_eq,ne_eq,zero]
  have done : ∀ code', execAll M code' s' = .ok {s' with stack := represent 32 (truth (z != 0)) :: base} →
      Meets M c base s' code' ⟨32,false⟩ 32 (.ok (truth (z != 0),m)) :=
    fun _ ran => meets_done truth_range ran rfl memory (stack_kept _)
  refine done _ ?_
  obtain ⟨bits,u⟩ := t
  dsimp only at wide stack nonzero ⊢
  rcases wide with rfl | rfl
  · refine append_done (i32c_run 0) (numeric_run (s := s'.push (represent 32 0)) ?_)
    show NumericOp.eval _ _ (represent 32 0 :: s'.stack) = _
    rw [stack,represent_truth,← nonzero]
    rfl
  · refine append_done (i64c_run 0) (numeric_run (s := s'.push (represent 64 0)) ?_)
    show NumericOp.eval _ _ (represent 64 0 :: s'.stack) = _
    rw [stack,represent_truth,← nonzero]
    rfl

theorem genExprAs_meets {n : Node} {ty : Ty} {gen : Gen Code} {r : CResult (Int × Memory)} (type : n.ty = some ty)
    (word : Word ty t) (target : w = 32 ∨ w = 64) (made : genExprAs n gen (some (classOf w)) = .ok code)
    (operand : ∀ code, gen = .ok code → Meets M c base s code t t.bits r) : Meets M c base s code t w r := by
  obtain ⟨ty',known,made⟩ := bind_ok made
  obtain ⟨first,generated,made⟩ := bind_ok made
  obtain ⟨converted,conversion,made⟩ := bind_ok made
  cases made
  have same := typed_ty known
  rw [type] at same conversion
  cases same
  rw [word.vclass,word.unsigned] at conversion
  exact convert_meets word.wide target conversion (operand first generated)

theorem genCond_meets {n : Node} {ty : Ty} {gen : Gen Code} {r : CResult (Int × Memory)} (type : n.ty = some ty)
    (word : Word ty t) (made : genCond n gen = .ok code)
    (operand : ∀ code, gen = .ok code → Meets M c base s code t t.bits r) :
    Meets M c base s code ⟨32,false⟩ 32 (r >>= fun p => .ok (truth (p.1 != 0),p.2)) := by
  obtain ⟨first,generated,made⟩ := bind_ok made
  cases made
  rw [type,word.vclass]
  exact toBool_meets word.wide (operand first generated)

theorem genVarAddr_run {v : Obj} (framed : Framed c fpv s) (made : genVarAddr c v = .ok code) :
    ∃ a : U32, execAll M code s = .ok (s.push (.i32 a)) ∧ a.toNat = placeOf c fpv v := by
  unfold genVarAddr at made
  unfold placeOf
  split at made
  · cases made
  by_cases isLocal : v.isLocal
  · rw [if_pos isLocal] at made ⊢
    cases made
    refine ⟨fpv + BitVec.ofInt 32 v.offset,?_,rfl⟩
    have base : execAll M (localGet c.fp) s = .ok (s.push (.i32 fpv)) := by
      unfold localGet
      rw [plain_cons]
      exact congrArg (fun v => Except.ok (s.push v)) framed
    unfold fpPlus
    split
    · refine append_done base (append_done (i32c_run v.offset) (numeric_run ?_))
      rfl
    · rename_i zero
      rw [not_not.mp zero]
      simpa using base
  · rw [if_neg isLocal] at made ⊢
    split at made
    · cases made
    · obtain ⟨a,found,made⟩ := bind_ok made
      cases made
      rw [found]
      exact ⟨_,i32c_run a,rfl⟩

theorem load_word {ty : Ty} (word : Word ty t) :
    load ty = .ok [.plain (if t.bits = 64 then .load .i64Load 3 else .load .i32Load 2)] := by
  obtain ⟨known,wide,_,_,_,_⟩ := word
  cases ty <;> cases known <;> first | rfl | simp at wide

theorem store_word {ty : Ty} (word : Word ty t) :
    store ty = .ok [.plain (if t.bits = 64 then .store .i64Store 3 else .store .i32Store 2)] := by
  obtain ⟨known,wide,_,_,_,_⟩ := word
  cases ty <;> cases known <;> first | rfl | simp at wide

theorem represent_read (wide : t.bits = 32 ∨ t.bits = 64) (a : Nat) : represent t.bits (readInt t m a) =
    if t.bits = 64 then .i64 (ofBytes 8 (m.read a 8)) else .i32 (ofBytes 4 (m.read a 4)) := by
  unfold readInt
  rw [represent_wrap _ rfl wide]
  rcases wide with bits | bits <;> simp [represent,bits,ofBytes]

theorem load_run {ty : Ty} {a : U32} (word : Word ty t) (made : load ty = .ok code) (top : s.stack = .i32 a :: base)
    (inside : a.toNat + t.bits / 8 ≤ s.memory.size) :
    execAll M code s = .ok {s with stack := represent t.bits (readInt t s.memory a.toNat) :: base} := by
  rw [load_word word] at made
  cases made
  rw [represent_read word.wide]
  rcases word.wide with bits | bits <;> rw [bits] at inside ⊢
  · have fetch : LoadOp.value .i32Load s.memory a.toNat = some (.i32 (ofBytes 4 (s.memory.read a.toNat 4))) := by
      simp only [LoadOp.value,load_inside (n := 4) inside]; rfl
    rw [if_neg (by decide),if_neg (by decide),plain_cons]
    unfold Plain.exec
    rw [top]
    dsimp only
    rw [fetch]
    rfl
  · have fetch : LoadOp.value .i64Load s.memory a.toNat = some (.i64 (ofBytes 8 (s.memory.read a.toNat 8))) := by
      simp only [LoadOp.value,load_inside (n := 8) inside]; rfl
    rw [if_pos rfl,if_pos rfl,plain_cons]
    unfold Plain.exec
    rw [top]
    dsimp only
    rw [fetch]
    rfl

theorem store_run {ty : Ty} {a : U32} (word : Word ty t) (made : store ty = .ok code)
    (top : s.stack = represent t.bits z :: .i32 a :: base) (inside : a.toNat + t.bits / 8 ≤ s.memory.size) :
    execAll M code s = .ok {s with stack := base,memory := writeInt t s.memory a.toNat z} := by
  rw [store_word word] at made
  cases made
  unfold writeInt
  rcases word.wide with bits | bits <;> rw [bits] at inside top ⊢
  · have put : StoreOp.result .i32Store s.memory a.toNat (represent 32 z) =
        some (some (s.memory.write a.toNat (toBytes (n := 4) (BitVec.ofInt 32 z)))) :=
      congrArg some (store_inside inside)
    rw [if_neg (by decide),plain_cons]
    unfold Plain.exec
    rw [top]
    dsimp only
    rw [put]
    rfl
  · have put : StoreOp.result .i64Store s.memory a.toNat (represent 64 z) =
        some (some (s.memory.write a.toNat (toBytes (n := 8) (BitVec.ofInt 64 z)))) :=
      congrArg some (store_inside inside)
    rw [if_pos rfl,plain_cons]
    unfold Plain.exec
    rw [top]
    dsimp only
    rw [put]
    rfl

end

-- gen_expr is right about one node: its code meets the C evaluation from every state of the frame.
def Correct (M : Machine) (c : Context) (fpv : U32) (strict : Bool) (n : Node) : Prop :=
  ∀ depth ty t s code, n.ty = some ty → Word ty t → Framed c fpv s → Stored (placeOf c fpv) s.memory.size n →
    genExpr c depth n = .ok code → Meets M c s.stack s code t t.bits (ceval strict (placeOf c fpv) n s.memory)

section
variable {M : Machine} {c : Context} {fpv : U32} {strict : Bool} {place : Obj → Nat} {ty : Ty} {t : IntType} {m : Memory}
  {lhs rhs test yes no : Node}

theorem ceval_binary (strict : Bool) (place : Obj → Nat) (m : Memory) (lhs rhs : Node) (known : ty.intType = some t)
    (kind : BinaryKind)
    (plain : kind.rule = .arithmetic ∨ kind.rule = .comparison ∨ kind.rule = .shift) :
    ceval strict place (.binary kind (some ty) lhs rhs) m =
      (ceval strict place lhs m >>= fun p => ceval strict place rhs p.2 >>= fun q =>
        arithmetic strict t kind p.1 q.1 >>= fun z => .ok (z,q.2)) := by
  cases kind <;> simp [BinaryKind.rule] at plain <;> (rw [ceval,known_type known] <;> first | rfl | simp)

theorem ceval_assign (known : ty.intType = some t) {vt : Option Ty} {v : Obj} :
    ceval strict place (.binary .assign (some ty) (.var vt v) rhs) m =
      (ceval strict place rhs m >>= fun p => .ok (p.1,writeInt t p.2 (place v) p.1)) := by
  simp only [ceval,known_type known]
  rfl

theorem meets_unary {M : Machine} {base : List Value} (below : List Value) {s : State} {code last : Code} {t v : IntType} {w : Nat}
    {r : CResult (Int × Memory)} (f : Int → CResult Int) (operand : Meets M c below s code v w r)
    (agrees : ∀ z (s' : State), v.InRange z → s'.stack = represent w z :: below →
      ∀ y, f z = .ok y → t.InRange y ∧ execAll M last s' = .ok {s' with stack := represent t.bits y :: base})
    (total : ∀ z, f z ≠ .error .trap) :
    Meets M c base s (code ++ last) t t.bits (r >>= fun p => f p.1 >>= fun z => .ok (z,p.2)) := by
  refine meets_bind operand fun z m s' range stack memory kept => ?_
  dsimp only
  cases value : f z with
  | ok y =>
    obtain ⟨inside,ran⟩ := agrees z s' range stack y value
    exact meets_done inside ran rfl memory (stack_kept _)
  | error e =>
    cases e with
    | trap => exact absurd value (total z)
    | undefined => trivial

theorem num_correct (n : Number) : Correct M c fpv strict (.num (some ty) n) := by
  intro depth ty t s code type word framed stored made
  cases type
  cases made
  have value : ceval strict (placeOf c fpv) (.num (some ty) n) s.memory = .ok (t.wrap n.val,s.memory) := by
    rw [ceval,known_type word.known]
  rw [value]
  have ran : execAll M (genNum (some ty) n) s = .ok (s.push (represent t.bits n.val)) := by
    unfold genNum
    rw [word.vclass]
    rcases word.wide with bits | bits <;> rw [bits] <;> rfl
  refine meets_done wrap_range ran ?_ rfl (push_kept _)
  rw [represent_wrap _ rfl word.wide]
  rfl

theorem var_correct (v : Obj) : Correct M c fpv strict (.var (some ty) v) := by
  intro depth ty t s code type word framed stored made
  cases type
  have value : ceval strict (placeOf c fpv) (.var (some ty) v) s.memory =
      .ok (readInt t s.memory (placeOf c fpv v),s.memory) := by
    rw [ceval,known_type word.known]
  obtain ⟨address,addressed,made⟩ := bind_ok made
  obtain ⟨fetch,loading,made⟩ := bind_ok made
  cases made
  obtain ⟨a,ran,at_place⟩ := genVarAddr_run (M := M) framed addressed
  have inside := stored t word.known
  rw [← at_place] at inside value
  rw [value]
  exact meets_done wrap_range (append_done ran (load_run (s := s.push (.i32 a)) word loading rfl inside)) rfl rfl
    (stack_kept _)

theorem reduce_finite {z : Int} : reduce strict t z ≠ .error .trap := by
  unfold reduce
  split <;> simp

theorem reduce_value {z y : Int} (value : reduce strict t z = .ok y) : y = t.wrap z := by
  unfold reduce at value
  split at value <;> cases value
  rfl

-- The constant and the operators of a class.
def constant (w : Nat) (v : Int) : Code := if w = 64 then i64c v else i32c v
def wordOp (w : Nat) (o : IntBinary) : NumericOp := if w = 64 then .i64 o else .i32 o
def wordCompare (w : Nat) (o : IntCompare) : NumericOp := if w = 64 then .i64Compare o else .i32Compare o

theorem constant_run {s : State} (w : Nat) (v : Int) : execAll M (constant w v) s = .ok (s.push (represent w v)) := by
  unfold constant represent
  split <;> rfl

section
variable {w : Nat} {s : State} {base : List Value} {o : IntBinary} {a b z : Int}

theorem wordOp_run (stack : s.stack = represent w b :: represent w a :: base)
    (ran : o.eval (BitVec.ofInt w a) (BitVec.ofInt w b) = .ok (BitVec.ofInt w z)) (wide : w = 32 ∨ w = 64) :
    execAll M (op (wordOp w o)) s = .ok {s with stack := represent w z :: base} := by
  apply numeric_run
  rw [stack]
  rcases wide with rfl | rfl <;> simp [NumericOp.eval,wordOp,represent,ran,bind,Except.bind,pure,Except.pure]

theorem wordOp_stops {e : Stop} (stack : s.stack = represent w b :: represent w a :: base)
    (ran : o.eval (BitVec.ofInt w a) (BitVec.ofInt w b) = .error e) (wide : w = 32 ∨ w = 64) :
    execAll M (op (wordOp w o)) s = .error e := by
  apply numeric_stops
  rw [stack]
  rcases wide with rfl | rfl <;> simp [NumericOp.eval,wordOp,represent,ran,bind,Except.bind]

theorem wordCompare_run {o : IntCompare} (stack : s.stack = represent w b :: represent w a :: base)
    (wide : w = 32 ∨ w = 64) : execAll M (op (wordCompare w o)) s =
      .ok {s with stack := represent 32 (truth (o.eval (BitVec.ofInt w a) (BitVec.ofInt w b))) :: base} := by
  apply numeric_run
  rw [stack,represent_truth]
  rcases wide with rfl | rfl <;> rfl

end

theorem genNeg_word {gen : Gen Code} (word : Word ty t) : genNeg (some ty) lhs gen = do
    let operand ← genExprAs lhs gen (some (classOf t.bits))
    return constant t.bits 0 ++ operand ++ op (wordOp t.bits .sub) := by
  unfold genNeg
  rw [word.vclass]
  rcases word.wide with bits | bits <;> rw [bits] <;> rfl

theorem neg_correct (typed : lhs.ty = some ty) (operand : Correct M c fpv strict lhs) :
    Correct M c fpv strict (.unary .neg (some ty) lhs) := by
  intro depth ty' t s code type word framed stored made
  cases type
  rw [ceval_unary word.known]
  have made := (genNeg_word word).symm.trans made
  obtain ⟨inner,generated,made⟩ := bind_ok made
  cases made
  rw [List.append_assoc]
  -- 0 - x, with the 0 pushed before the operand is evaluated
  refine meets_after (constant_run t.bits 0) (push_kept _) (meets_unary (represent t.bits 0 :: s.stack) _ (v := t) (w := t.bits) ?_ ?_
    fun _ => reduce_finite)
  · exact genExprAs_meets typed word word.wide generated
      fun inner made => operand depth _ _ (s.push (represent t.bits 0)) inner typed word framed stored made
  · intro z s' range stack y value
    rw [reduce_value value]
    refine ⟨wrap_range,wordOp_run (a := 0) (b := z) stack ?_ word.wide⟩
    rw [ofInt_wrap,IntBinary.eval,← ofInt_sub,Int.zero_sub]

theorem not_correct {ty' : Ty} {t' : IntType} (typed : lhs.ty = some ty') (word' : Word ty' t')
    (operand : Correct M c fpv strict lhs) : Correct M c fpv strict (.unary .not (some (.int false)) lhs) := by
  intro depth ty t s code type word framed stored made
  cases type
  rw [ceval_unary word.known]
  cases word.known
  obtain ⟨inner,generated,made⟩ := bind_ok made
  cases made
  have condition := genCond_meets typed word' generated
    fun inner made => operand depth _ _ s inner typed word' framed stored made
  have twice : ∀ r : CResult (Int × Memory),
      (r >>= fun p => unaryMeaning strict ⟨32,false⟩ .not p.1 >>= fun z => .ok (z,p.2)) =
      ((r >>= fun p => .ok (truth (p.1 != 0),p.2)) >>= fun p => .ok (truth (p.1 == 0)) >>= fun z => .ok (z,p.2)) := by
    intro r
    cases r with
    | error e => rfl
    | ok p => by_cases zero : p.1 = 0 <;> simp [unaryMeaning,truth,zero,bind,Except.bind]
  rw [twice]
  refine meets_unary _ (fun z => .ok (truth (z == 0))) condition ?_ (by simp)
  intro z s' range stack y value
  cases value
  refine ⟨truth_range,numeric_run ?_⟩
  have zero := ofInt_zero_iff range
  have tested : (BitVec.ofInt 32 z == 0) = (z == 0) := by
    rw [Bool.eq_iff_iff,beq_iff_eq,beq_iff_eq]
    exact zero
  rw [stack,represent_truth,← tested]
  rfl

theorem genBitnot_word {gen : Gen Code} (word : Word ty t) : genBitnot (some ty) lhs gen = do
    let operand ← genExprAs lhs gen (some (classOf t.bits))
    return operand ++ constant t.bits (-1) ++ op (wordOp t.bits .xor) := by
  unfold genBitnot
  rw [word.vclass]
  rcases word.wide with bits | bits <;> rw [bits] <;> rfl

theorem bitnot_correct (typed : lhs.ty = some ty) (operand : Correct M c fpv strict lhs) :
    Correct M c fpv strict (.unary .bitnot (some ty) lhs) := by
  intro depth ty' t s code type word framed stored made
  cases type
  rw [ceval_unary word.known]
  have made := (genBitnot_word word).symm.trans made
  obtain ⟨inner,generated,made⟩ := bind_ok made
  cases made
  rw [List.append_assoc]
  refine meets_unary s.stack _ (v := t) (w := t.bits) ?_ ?_ (by simp [unaryMeaning])
  · exact genExprAs_meets typed word word.wide generated
      fun inner made => operand depth _ _ s inner typed word framed stored made
  · intro z s' range stack y value
    cases value
    refine ⟨wrap_range,append_done (constant_run t.bits (-1)) (wordOp_run (a := z) (b := -1) ?_ ?_ word.wide)⟩
    · exact congrArg (represent t.bits (-1) :: ·) stack
    · have ones : BitVec.ofInt t.bits (-1) = (-1 : BitVec t.bits) := by
        rw [BitVec.ofInt_neg]; rfl
      rw [ofInt_wrap,IntBinary.eval,ones,ofInt_not]

theorem cast_word {ty' : Ty} {t' : IntType} (word : Word ty t) (word' : Word ty' t') :
    cast (some ty') ty = convert (some (classOf t'.bits)) (some (classOf t.bits)) t'.unsigned := by
  obtain ⟨notVoid,notBool,_⟩ := word.scalar
  obtain ⟨_,_,_,notArray,_⟩ := word'.scalar
  have large : ¬ty.size ilp32 < 4 := by
    have size := word.size
    have wide := word.wide
    omega
  have notFloat : isFloatClass (some (classOf t'.bits)) = false := by
    rcases word'.wide with bits | bits <;> rw [bits] <;> rfl
  unfold cast
  rw [word.vclass,word'.vclass]
  simp only [notVoid,notBool,notArray,large,notFloat,word'.unsigned,Bool.false_eq_true,if_false,Bool.false_and,
    false_and,and_false,Bool.or_false]
  cases convert (some (classOf t'.bits)) (some (classOf t.bits)) t'.unsigned <;> rfl

theorem cast_correct {ty' : Ty} {t' : IntType} (typed : lhs.ty = some ty') (word' : Word ty' t')
    (operand : Correct M c fpv strict lhs) : Correct M c fpv strict (.unary .cast (some ty) lhs) := by
  intro depth ty₀ t s code type word framed stored made
  cases type
  rw [ceval_unary word.known]
  obtain ⟨inner,generated,made⟩ := bind_ok made
  obtain ⟨converted,conversion,made⟩ := bind_ok made
  cases made
  rw [typed,cast_word word word'] at conversion
  have value := convert_meets word'.wide word.wide conversion (operand depth _ _ s inner typed word' framed stored generated)
  rw [← List.append_nil (inner ++ converted)]
  refine meets_unary s.stack (fun z => .ok (t.wrap z)) value ?_ (by simp)
  intro z s' range stack y value
  cases value
  refine ⟨wrap_range,?_⟩
  rw [represent_wrap _ rfl word.wide,← stack]
  rfl

-- The operator at the end of gen_binary, on residues of two operands.
theorem wordOp_meets {s : State} {base : List Value} {kind : BinaryKind} {o : IntBinary} {a b : Int}
    (chosen : intBinary kind t.unsigned = some o) (wide : t.bits = 32 ∨ t.bits = 64)
    (one : kind = .sub ∨ t.InRange a) (two : kind = .sub ∨ kind.rule = .shift ∨ t.InRange b)
    (stack : s.stack = represent t.bits b :: represent t.bits a :: base) :
    Meets M c base s (op (wordOp t.bits o)) t t.bits (arithmetic strict t kind a b >>= fun z => .ok (z,s.memory)) := by
  have agrees : Agrees t _ (arithmetic strict t kind a b) := binary_agrees chosen (by omega) one two
  cases value : arithmetic strict t kind a b with
  | ok z =>
    rw [value] at agrees
    exact meets_done agrees.1 (wordOp_run stack agrees.2 wide) rfl rfl (stack_kept _)
  | error e =>
    cases e with
    | trap =>
      rw [value] at agrees
      obtain ⟨reason,arithmetic,stopped⟩ := agrees
      exact ⟨reason,arithmetic,wordOp_stops stack stopped wide⟩
    | undefined => trivial

theorem wordCompare_meets {s : State} {base : List Value} {kind : BinaryKind} {o : IntCompare} {a b : Int} {r : IntType}
    (chosen : intCompare kind t.unsigned = some o) (wide : t.bits = 32 ∨ t.bits = 64)
    (one : t.InRange a) (two : t.InRange b) (stack : s.stack = represent t.bits b :: represent t.bits a :: base) :
    Meets M c base s (op (wordCompare t.bits o)) ⟨32,false⟩ 32
      (arithmetic strict r kind a b >>= fun z => .ok (z,s.memory)) := by
  rw [compare_agrees chosen one two]
  exact meets_done truth_range (wordCompare_run stack wide) rfl rfl (stack_kept _)

theorem genBinary_parts {kind : BinaryKind} {ty : Option Ty} {tl : Ty} {t' : IntType} {lcode rcode : Gen Code} {code : Code}
    (left : lhs.ty = some tl) (word : Word tl t') (made : genBinary kind ty lhs rhs lcode rcode = .ok code) :
    ∃ one two o, genExprAs lhs lcode (if kind.isCmp then vclass lhs.ty else vclass ty) = .ok one ∧
      genExprAs rhs rcode (if kind.isCmp then vclass lhs.ty else vclass ty) = .ok two ∧
      intOp kind ((if kind.isCmp then vclass lhs.ty else vclass ty) == some .i64) t'.unsigned = .ok o ∧
      code = one ++ two ++ op o := by
  obtain ⟨_,_,flat,notArray,_⟩ := word.scalar
  obtain ⟨known,same,made⟩ := bind_ok made
  have type := typed_ty same
  rw [left] at type
  cases type
  obtain ⟨one,first,made⟩ := bind_ok made
  obtain ⟨two,second,made⟩ := bind_ok made
  rw [flat,if_neg (by decide),notArray,Bool.or_false,word.unsigned] at made
  obtain ⟨o,chosen,made⟩ := bind_ok made
  cases made
  exact ⟨one,two,o,first,second,chosen,rfl⟩

theorem class_word (wide : t.bits = 32 ∨ t.bits = 64) : (some (classOf t.bits) == some ValueType.i64) = (t.bits == 64) := by
  rcases wide with bits | bits <;> rw [bits] <;> rfl

theorem intOp_binary {kind : BinaryKind} {u : Bool} {w : Nat} {o : NumericOp} (chosen : intOp kind (w == 64) u = .ok o)
    (plain : kind.rule = .arithmetic ∨ kind.rule = .shift) :
    ∃ b, intBinary kind u = some b ∧ o = wordOp w b := by
  rcases intOp_parts chosen with ⟨b,binary,rfl⟩ | ⟨r,compare,rfl⟩
  · exact ⟨b,binary,by simp [wordOp]⟩
  · cases kind <;> simp [BinaryKind.rule,intCompare] at plain compare

theorem intOp_compare {kind : BinaryKind} {u : Bool} {w : Nat} {o : NumericOp} (chosen : intOp kind (w == 64) u = .ok o)
    (plain : kind.rule = .comparison) : ∃ r, intCompare kind u = some r ∧ o = wordCompare w r := by
  rcases intOp_parts chosen with ⟨b,binary,rfl⟩ | ⟨r,compare,rfl⟩
  · cases kind <;> simp [BinaryKind.rule,intBinary] at plain binary
  · exact ⟨r,compare,by simp [wordCompare]⟩

-- Signedness is read off the left operand; SUB does not depend on it.
theorem sub_unsigned {kind : BinaryKind} {u v : Bool} {o : IntBinary} (chosen : intBinary kind u = some o)
    (same : kind = .sub ∨ u = v) : intBinary kind v = some o := by
  rcases same with rfl | rfl
  · exact chosen
  · exact chosen

theorem binary_correct {kind : BinaryKind} {tl tr : Ty} {t₁ t₂ : IntType} (left : lhs.ty = some tl) (wordL : Word tl t₁)
    (right : rhs.ty = some tr) (wordR : Word tr t₂) (plain : kind.rule = .arithmetic ∨ kind.rule = .shift)
    (same : kind = .sub ∨ tl = ty) (other : kind = .sub ∨ kind.rule = .shift ∨ tr = ty)
    (one : Correct M c fpv strict lhs) (two : Correct M c fpv strict rhs) :
    Correct M c fpv strict (.binary kind (some ty) lhs rhs) := by
  intro depth ty' t s code type word framed stored made
  cases type
  have value := ceval_binary strict (placeOf c fpv) s.memory lhs rhs word.known kind
    (by rcases plain with rule | rule <;> simp [rule])
  have generic : genExpr c depth (.binary kind (some ty) lhs rhs) =
      genBinary kind (some ty) lhs rhs (genExpr c depth lhs) (genExpr c depth rhs) := by
    cases kind <;> simp [BinaryKind.rule] at plain <;> rfl
  rw [generic] at made
  obtain ⟨first,second,o,madeL,madeR,chosen,rfl⟩ := genBinary_parts left wordL made
  have notCmp : kind.isCmp = false := by cases kind <;> simp [BinaryKind.rule] at plain <;> rfl
  simp only [notCmp,Bool.false_eq_true,if_false,word.vclass] at madeL madeR chosen
  rw [class_word word.wide] at chosen
  obtain ⟨b,binary,rfl⟩ := intOp_binary chosen plain
  have sameType : ∀ {x : Ty} {u : IntType}, Word x u → x = ty → u = t := by
    rintro x u known rfl
    exact Option.some.inj (known.known.symm.trans word.known)
  rw [value,List.append_assoc]
  refine meets_bind (genExprAs_meets left wordL word.wide madeL
    fun inner made => one depth _ _ s inner left wordL framed stored.1 made) fun a m s' rangeA stackA memoryA keptA => ?_
  have storedR : Stored (placeOf c fpv) s'.memory.size rhs := by rw [keptA.size]; exact stored.2
  rw [← memoryA]
  refine meets_bind (genExprAs_meets right wordR word.wide madeR
    fun inner made => two depth _ _ s' inner right wordR (framed.kept keptA) storedR made)
    fun z m' s'' rangeB stackB memoryB keptB => ?_
  rw [← memoryB]
  refine wordOp_meets (sub_unsigned binary ?_) word.wide ?_ ?_ (stackB.trans (congrArg _ stackA))
  · exact same.imp_right fun equal => congrArg IntType.unsigned (sameType wordL equal)
  · exact same.imp_right fun equal => sameType wordL equal ▸ rangeA
  · exact other.imp_right fun rest => rest.imp_right fun equal => sameType wordR equal ▸ rangeB

theorem comparison_correct {kind : BinaryKind} {tl : Ty} {t₁ : IntType} (left : lhs.ty = some tl) (wordL : Word tl t₁)
    (right : rhs.ty = some tl) (plain : kind.rule = .comparison)
    (one : Correct M c fpv strict lhs) (two : Correct M c fpv strict rhs) :
    Correct M c fpv strict (.binary kind (some (.int false)) lhs rhs) := by
  intro depth ty' t s code type word framed stored made
  cases type
  have value := ceval_binary strict (placeOf c fpv) s.memory lhs rhs word.known kind (by simp [plain])
  cases word.known
  have generic : genExpr c depth (.binary kind (some (.int false)) lhs rhs) =
      genBinary kind (some (.int false)) lhs rhs (genExpr c depth lhs) (genExpr c depth rhs) := by
    cases kind <;> simp [BinaryKind.rule] at plain <;> rfl
  rw [generic] at made
  obtain ⟨first,second,o,madeL,madeR,chosen,rfl⟩ := genBinary_parts left wordL made
  have cmp : kind.isCmp = true := by cases kind <;> simp [BinaryKind.rule] at plain <;> rfl
  simp only [cmp,if_true,left,wordL.vclass] at madeL madeR chosen
  rw [class_word wordL.wide] at chosen
  obtain ⟨r,compare,rfl⟩ := intOp_compare chosen plain
  rw [value,List.append_assoc]
  refine meets_bind (genExprAs_meets left wordL wordL.wide madeL
    fun inner made => one depth _ _ s inner left wordL framed stored.1 made) fun a m s' rangeA stackA memoryA keptA => ?_
  have storedR : Stored (placeOf c fpv) s'.memory.size rhs := by rw [keptA.size]; exact stored.2
  rw [← memoryA]
  refine meets_bind (genExprAs_meets right wordL wordL.wide madeR
    fun inner made => two depth _ _ s' inner right wordL (framed.kept keptA) storedR made)
    fun z m' s'' rangeB stackB memoryB keptB => ?_
  rw [← memoryB]
  exact wordCompare_meets compare wordL.wide rangeA rangeB (stackB.trans (congrArg _ stackA))

theorem meets_same {s s' : State} {base : List Value} {code code' : Code} {w : Nat} {r : CResult (Int × Memory)}
    (same : execAll M code s = execAll M code' s') (kept : Kept c s s') (rest : Meets M c base s' code' t w r) :
    Meets M c base s code t w r := by
  cases r with
  | ok p =>
    obtain ⟨range,last,ran,stack,memory,more⟩ := rest
    exact ⟨range,last,same.trans ran,stack,memory,kept.trans more⟩
  | error e =>
    cases e with
    | trap =>
      obtain ⟨reason,arithmetic,stopped⟩ := rest
      exact ⟨reason,arithmetic,same.trans stopped⟩
    | undefined => trivial

-- A condition leaves a boolean, and `if` takes the branch C takes.
theorem meets_condition {s : State} {below base : List Value} {gen : Gen Code} {code : Code} {n : Node} {tn : Ty}
    {t' : IntType} {w : Nat} {result : Option ValueType} {yesCode noCode : Code}
    {r : CResult (Int × Memory)} {f : Int × Memory → CResult (Int × Memory)} (type : n.ty = some tn) (word : Word tn t')
    (made : genCond n gen = .ok code) (operand : ∀ code, gen = .ok code → Meets M c below s code t' t'.bits r)
    (taken : ∀ z m s', z ≠ 0 → s'.stack = below → s'.memory = m → Kept c s s' → Meets M c base s' yesCode t w (f (z,m)))
    (skipped : ∀ m s', s'.stack = below → s'.memory = m → Kept c s s' → Meets M c base s' noCode t w (f (0,m))) :
    Meets M c base s (code ++ [.ifElse result yesCode noCode]) t w (r >>= f) := by
  have condition := genCond_meets type word made operand
  cases r with
  | ok p =>
    obtain ⟨z,m⟩ := p
    obtain ⟨_,s',ran,stack,memory,kept⟩ := condition
    rw [represent_truth] at stack
    refine meets_after ran kept ?_
    by_cases zero : z = 0
    · subst zero
      have same : execAll M [.ifElse result yesCode noCode] s' = execAll M noCode {s' with stack := below} :=
        ifElse_skipped stack
      refine meets_same same (stack_kept _) (skipped m _ rfl memory ?_)
      exact kept.trans (stack_kept _)
    · have nonzero : (z != 0) = true := bne_iff_ne.mpr zero
      rw [nonzero] at stack
      have same : execAll M [.ifElse result yesCode noCode] s' = execAll M yesCode {s' with stack := below} :=
        ifElse_taken stack (by decide)
      refine meets_same same (stack_kept _) (taken z m _ zero rfl memory ?_)
      exact kept.trans (stack_kept _)
  | error e =>
    cases e with
    | trap =>
      obtain ⟨reason,arithmetic,stopped⟩ := condition
      exact ⟨reason,arithmetic,append_stopped stopped⟩
    | undefined => trivial

theorem genCond_value {s : State} {base : List Value} {gen : Gen Code} {code : Code} {n : Node} {tn : Ty} {t' : IntType}
    {r : CResult (Int × Memory)} (type : n.ty = some tn) (word : Word tn t') (made : genCond n gen = .ok code)
    (operand : ∀ code, gen = .ok code → Meets M c base s code t' t'.bits r) :
    Meets M c base s code ⟨32,false⟩ 32 (r >>= fun p => .ok (truth (p.1 != 0),p.2)) := genCond_meets type word made operand

section
variable {tl tr : Ty} {t₁ t₂ : IntType}

theorem logand_correct (left : lhs.ty = some tl) (wordL : Word tl t₁) (right : rhs.ty = some tr) (wordR : Word tr t₂)
    (one : Correct M c fpv strict lhs) (two : Correct M c fpv strict rhs) :
    Correct M c fpv strict (.binary .logand (some (.int false)) lhs rhs) := by
  intro depth ty' t s code type word framed stored made
  cases type
  cases word.known
  obtain ⟨test,first,made⟩ := bind_ok made
  obtain ⟨_,_,made⟩ := bind_ok made
  obtain ⟨second,other,made⟩ := bind_ok made
  cases made
  rw [ceval]
  refine meets_condition left wordL first
    (fun inner made => one depth _ _ s inner left wordL framed stored.1 made) (fun z m s' nonzero stack memory kept => ?_)
    (fun m s' stack memory kept => ?_)
  · dsimp only
    rw [if_neg nonzero,← stack,← memory]
    exact genCond_value right wordR other fun inner made => two (depth + 1) _ _ s' inner right wordR (framed.kept kept)
      (by rw [kept.size]; exact stored.2) made
  · dsimp only
    rw [if_pos rfl]
    exact meets_done zero_range (i32c_run 0) (congrArg _ stack) memory (push_kept _)

theorem logor_correct (left : lhs.ty = some tl) (wordL : Word tl t₁) (right : rhs.ty = some tr) (wordR : Word tr t₂)
    (one : Correct M c fpv strict lhs) (two : Correct M c fpv strict rhs) :
    Correct M c fpv strict (.binary .logor (some (.int false)) lhs rhs) := by
  intro depth ty' t s code type word framed stored made
  cases type
  cases word.known
  obtain ⟨test,first,made⟩ := bind_ok made
  obtain ⟨_,_,made⟩ := bind_ok made
  obtain ⟨second,other,made⟩ := bind_ok made
  cases made
  rw [ceval]
  refine meets_condition left wordL first
    (fun inner made => one depth _ _ s inner left wordL framed stored.1 made) (fun z m s' nonzero stack memory kept => ?_)
    (fun m s' stack memory kept => ?_)
  · dsimp only
    rw [if_pos nonzero]
    exact meets_done (by decide) (i32c_run 1) (congrArg _ stack) memory (push_kept _)
  · dsimp only
    rw [if_neg (by decide),← stack,← memory]
    exact genCond_value right wordR other fun inner made => two (depth + 1) _ _ s' inner right wordR (framed.kept kept)
      (by rw [kept.size]; exact stored.2) made

theorem comma_correct (left : lhs.ty = some tl) (wordL : Word tl t₁) (right : rhs.ty = some ty)
    (one : Correct M c fpv strict lhs) (two : Correct M c fpv strict rhs) :
    Correct M c fpv strict (.binary .comma (some ty) lhs rhs) := by
  intro depth ty' t s code type word framed stored made
  cases type
  obtain ⟨first,before,made⟩ := bind_ok made
  obtain ⟨second,after,made⟩ := bind_ok made
  cases made
  have dropped : droppedValue lhs first = first ++ drop := by
    unfold droppedValue
    rw [left,wordL.vclass]
    rfl
  rw [ceval,dropped,List.append_assoc]
  refine meets_bind (one depth _ _ s first left wordL framed stored.1 before) fun z m s' range stack memory kept => ?_
  have popped : execAll M drop s' = .ok {s' with stack := s.stack} := by
    unfold drop
    rw [plain_cons]
    unfold Plain.exec
    rw [stack]
    rfl
  refine meets_after popped (stack_kept _) ?_
  rw [← memory]
  exact two depth _ _ {s' with stack := s.stack} second right word (framed.kept (kept.trans (stack_kept _))) (by
    show Stored _ s'.memory.size rhs
    rw [kept.size]
    exact stored.2) after

theorem cond_correct {tc : Ty} {t₀ : IntType} (condition : test.ty = some tc) (wordC : Word tc t₀)
    (left : yes.ty = some ty) (right : no.ty = some ty) (zero : Correct M c fpv strict test)
    (one : Correct M c fpv strict yes) (two : Correct M c fpv strict no) :
    Correct M c fpv strict (.cond (some ty) test yes no) := by
  intro depth ty' t s code type word framed stored made
  cases type
  obtain ⟨tested,first,made⟩ := bind_ok made
  obtain ⟨_,_,made⟩ := bind_ok made
  obtain ⟨yesCode,second,made⟩ := bind_ok made
  obtain ⟨noCode,third,made⟩ := bind_ok made
  cases made
  rw [word.vclass] at second third
  rw [ceval]
  refine meets_condition condition wordC first
    (fun inner made => zero depth _ _ s inner condition wordC framed stored.1 made)
    (fun z m s' nonzero stack memory kept => ?_) (fun m s' stack memory kept => ?_)
  · dsimp only
    rw [if_pos nonzero,← stack,← memory]
    exact genExprAs_meets left word word.wide second fun inner made =>
      one (depth + 1) _ _ s' inner left word (framed.kept kept) (by rw [kept.size]; exact stored.2.1) made
  · dsimp only
    rw [if_neg (by decide),← stack,← memory]
    exact genExprAs_meets right word word.wide third fun inner made =>
      two (depth + 1) _ _ s' inner right word (framed.kept kept) (by rw [kept.size]; exact stored.2.2) made

def scratchOf (c : Context) (w : Nat) : Nat := if w = 64 then c.t64 else c.t32

theorem scratch_kept {s : State} (w : Nat) (v : Value) (stack : List Value) (memory : Memory)
    (size : memory.size = s.memory.size) :
    Kept c s {s with stack,memory,locals := Function.update s.locals (scratchOf c w) v} where
  sp := rfl
  size := size
  locals i one two := by
    refine Function.update_of_ne ?_ _ _
    unfold scratchOf
    split
    · exact two
    · exact one

theorem assign_correct {v : Obj} (right : rhs.ty = some ty) (two : Correct M c fpv strict rhs) :
    Correct M c fpv strict (.binary .assign (some ty) (.var (some ty) v) rhs) := by
  intro depth ty' t s code type word framed stored made
  cases type
  obtain ⟨_,_,_,_,notStruct,_⟩ := word.scalar
  change genAssign c (some ty) (.var (some ty) v) rhs (genVarAddr c v) (genExpr c depth rhs) = .ok code at made
  unfold genAssign at made
  rw [if_neg (by simp [isBitfieldMember])] at made
  dsimp only at made
  rw [notStruct,if_neg (by decide),word.vclass] at made
  obtain ⟨address,addressed,made⟩ := bind_ok made
  obtain ⟨value,valued,made⟩ := bind_ok made
  obtain ⟨scratch,scratched,made⟩ := bind_ok made
  obtain ⟨put,storing,made⟩ := bind_ok made
  cases made
  have known : scratch = scratchOf c t.bits := by
    rcases word.wide with bits | bits <;> rw [bits] at scratched ⊢ <;> cases scratched <;> rfl
  subst known
  obtain ⟨a,ran,at_place⟩ := genVarAddr_run (M := M) framed addressed
  have inside := stored.1 t word.known
  rw [← at_place] at inside
  rw [ceval_assign word.known]
  simp only [List.append_assoc]
  refine meets_after ran (push_kept _) ?_
  refine meets_bind (genExprAs_meets right word word.wide valued fun inner made =>
    two depth _ _ (s.push (.i32 a)) inner right word framed stored.2 made) fun z m s' range stack memory kept => ?_
  have size : s'.memory.size = s.memory.size := kept.size
  -- tee, store, get: the value survives in the scratch local
  have tee : execAll M (localTee (scratchOf c t.bits)) s' =
      .ok {s' with locals := Function.update s'.locals (scratchOf c t.bits) (represent t.bits z)} := by
    unfold localTee
    rw [plain_cons]
    unfold Plain.exec
    rw [stack]
    rfl
  have write := store_run (M := M) (s := {s' with locals := Function.update s'.locals (scratchOf c t.bits) (represent t.bits z)})
    word storing stack (by rw [size]; exact inside)
  refine meets_done range (append_done tee (append_done write rfl)) ?_ ?_
    (scratch_kept t.bits (represent t.bits z) _ _ (by simp [writeInt]))
  · exact congrArg (· :: s.stack) (Function.update_self ..)
  · rw [← memory,← at_place]
    rfl

end

theorem wordTree_type {n : Node} (words : wordTree n = true) : ∃ ty t, n.ty = some ty ∧ Word ty t := by
  cases n with
  | num ty n => exact isWord_parts words
  | var ty v => exact isWord_parts (Bool.and_eq_true_iff.mp words).1
  | unary kind ty lhs =>
    simp only [wordTree,Bool.and_eq_true] at words
    exact isWord_parts words.1.2
  | binary kind ty lhs rhs =>
    simp only [wordTree,Bool.and_eq_true] at words
    exact isWord_parts words.1.1.2
  | cond ty c yes no =>
    simp only [wordTree,Bool.and_eq_true] at words
    exact isWord_parts words.1.1.1
  | _ => cases words

theorem variable_parts {n : Node} (variable_ : isVariable n = true) (typed : Typed n) :
    ∃ v : Obj, n = .var (some v.ty) v := by
  cases n with
  | var ty v => exact ⟨v,by rw [show ty = some v.ty from typed]⟩
  | _ => cases variable_

theorem genExpr_correct (n : Node) (typed : Typed n) (words : wordTree n = true) : Correct M c fpv strict n := by
  induction n with
  | num ty n =>
    obtain ⟨ty,t,rfl,_⟩ := isWord_parts words
    exact num_correct n
  | var ty v =>
    obtain ⟨ty,t,rfl,_⟩ := wordTree_type words
    exact var_correct v
  | unary kind ty lhs ih =>
    obtain ⟨operand,rule⟩ := typed
    have inner : wordTree lhs = true := (Bool.and_eq_true_iff.mp words).2
    obtain ⟨tl,t₁,left,wordL⟩ := wordTree_type inner
    obtain ⟨ty,t,same,word⟩ := wordTree_type words
    cases same
    cases kind with
    | neg => exact neg_correct rule (ih operand inner)
    | not => cases rule; exact not_correct left wordL (ih operand inner)
    | bitnot => exact bitnot_correct rule.symm (ih operand inner)
    | addr => cases words
    | deref => cases words
    | cast => exact cast_correct left wordL (ih operand inner)
  | binary kind ty lhs rhs ihl ihr =>
    obtain ⟨leftTyped,rightTyped,rule⟩ := typed
    have parts := words
    simp only [wordTree,Bool.and_eq_true] at parts
    obtain ⟨⟨⟨target,_⟩,wordsL⟩,wordsR⟩ := parts
    obtain ⟨tl,t₁,left,wordL⟩ := wordTree_type wordsL
    obtain ⟨tr,t₂,right,wordR⟩ := wordTree_type wordsR
    obtain ⟨ty,t,same,word⟩ := wordTree_type words
    cases same
    have one := ihl leftTyped wordsL
    have two := ihr rightTyped wordsR
    cases class_ : kind.rule with
    | arithmetic =>
      rw [class_] at rule
      refine binary_correct left wordL right wordR (.inl class_) (rule.imp_right fun same => ?_)
        (rule.imp_right fun same => .inr ?_) one two
      · exact Option.some.inj (left.symm.trans same.1)
      · exact Option.some.inj (right.symm.trans same.2)
    | shift =>
      rw [class_] at rule
      exact binary_correct left wordL right wordR (.inr class_) (.inr (Option.some.inj (left.symm.trans rule.symm)))
        (.inr (.inl class_)) one two
    | comparison =>
      rw [class_] at rule
      cases rule.2
      exact comparison_correct left wordL (rule.1 ▸ left) class_ one two
    | logical =>
      rw [class_] at rule
      cases rule
      cases kind <;> cases class_
      · exact logand_correct left wordL right wordR one two
      · exact logor_correct left wordL right wordR one two
    | comma =>
      rw [class_] at rule
      cases kind <;> cases class_
      exact comma_correct left wordL rule.symm one two
    | assign =>
      rw [class_] at rule
      cases kind <;> cases class_
      obtain ⟨v,rfl⟩ := variable_parts (by simpa using target) leftTyped
      cases rule.1
      obtain ⟨_,_,_,_,notStruct,_⟩ := word.scalar
      have same : rhs.ty = some v.ty := by
        rcases rule.2 with same | struct
        · exact same
        · have impossible : v.ty.isStruct = true := struct
          rw [notStruct] at impossible
          cases impossible
      exact assign_correct same two
  | cond ty test yes no ihc ihy ihn =>
    obtain ⟨testTyped,yesTyped,noTyped,rule⟩ := typed
    have parts := words
    simp only [wordTree,Bool.and_eq_true] at parts
    obtain ⟨⟨⟨_,wordsC⟩,wordsY⟩,wordsN⟩ := parts
    obtain ⟨tc,t₀,condition,wordC⟩ := wordTree_type wordsC
    obtain ⟨ty,t,same,word⟩ := wordTree_type words
    cases same
    rcases rule with ⟨left,right⟩ | void
    · exact cond_correct condition wordC left right (ihc testTyped wordsC) (ihy yesTyped wordsY) (ihn noTyped wordsN)
    · cases void
      obtain ⟨notVoid,_⟩ := word.scalar
      cases notVoid
  | _ => cases words

end

-- What running the code has to do for a C result: the value as a residue on top
-- of the old operand stack and the memory of C, or the trap of a division.
def Preserves (M : Machine) (c : Context) (s : State) (code : Code) (ty : Option Ty) : CResult (Int × Memory) → Prop
  | .ok (z,m) => ∃ t s', intTypeOf ty = some t ∧ execAll M code s = .ok s' ∧
      s'.stack = represent t.bits z :: s.stack ∧ s'.memory = m ∧ Kept c s s'
  | .error .trap => execAll M code s = .error .divideByZero ∨ execAll M code s = .error .integerOverflow
  | .error .undefined => True

theorem integer_expressions_preserved (M : Machine) (c : Context) (depth : Nat) (fpv : U32) (n n' : Node) (code : Code)
    (s : State) (parsed : Parsed n) (typed : addType ilp32 n = .ok n') (words : wordTree n' = true)
    (generated : genExpr c depth n' = .ok code) (framed : s.locals c.fp = .i32 fpv)
    (stored : Stored (placeOf c fpv) s.memory.size n') :
    Preserves M c s code n'.ty (ceval false (placeOf c fpv) n' s.memory) := by
  obtain ⟨ty,t,type,word⟩ := wordTree_type words
  have meets : Meets M c s.stack s code t t.bits (ceval false (placeOf c fpv) n' s.memory) :=
    genExpr_correct n' (addType_typed parsed typed) words depth ty t s code type word framed stored generated
  cases value : ceval false (placeOf c fpv) n' s.memory with
  | ok p =>
    rw [value] at meets
    obtain ⟨_,s',ran,stack,memory,kept⟩ := meets
    exact ⟨t,s',by rw [type]; exact word.known,ran,stack,memory,kept⟩
  | error e =>
    cases e with
    | trap =>
      rw [value] at meets
      obtain ⟨reason,arithmetic,stopped⟩ := meets
      rcases arithmetic with rfl | rfl
      · exact .inl stopped
      · exact .inr stopped
    | undefined => trivial

namespace Controls

def silentFloats : FloatUnit where
  f32Binary _ a _ := a
  f64Binary _ a _ := a
  f32Compare _ a b := a == b
  f64Compare _ a b := a == b
  f32Neg a := a
  f64Neg a := a
  f32Trunc _ := none
  f64Trunc _ := none
  f32OfInt _ := 0
  f64OfInt _ := 0
  demote _ := 0
  promote _ := 0

def machine : Machine := ⟨silentFloats,fun _ _ => .error .callee,fun _ _ => .error .callee⟩
def context : Context := ⟨1,.void,fun _ => none,fun _ => none,0,fun _ => 0⟩
def page : Memory := ⟨fun a => if a = 1032 then 5 else 0,1,1,onePage_grown,onePage_addressable⟩
def frame : State := ⟨[],fun _ => .i32 1024,1024,page⟩

def literal (ty : Ty) (v : Int) : Node := .num (some ty) ⟨v,0,0⟩
def local8 : Obj := ⟨"x",.int false,true,8,false,false⟩

-- x = x - 7u < 1, the variable holding 5.
def comparison : Node :=
  .binary .assign none (.var none local8)
    (.binary .lt none (.binary .sub none (.var none local8) (literal (.int true) 7)) (literal (.int false) 1))

def typedComparison : Node := ((addType ilp32 comparison).toOption).getD .nullExpr
def comparisonCode : Code := ((genExpr context 0 typedComparison).toOption).getD []

end Controls

theorem integer_expressions_preserved_wrap :
    (ceval false (placeOf Controls.context 1024) Controls.typedComparison Controls.page).toOption.map Prod.fst = some 0 ∧
    Preserves Controls.machine Controls.context Controls.frame Controls.comparisonCode Controls.typedComparison.ty
      (ceval false (placeOf Controls.context 1024) Controls.typedComparison Controls.page) :=
  ⟨by decide,integer_expressions_preserved Controls.machine Controls.context 0 1024 Controls.comparison
    Controls.typedComparison Controls.comparisonCode Controls.frame ⟨trivial,⟨trivial,trivial⟩,trivial⟩ rfl rfl rfl rfl
    ⟨fun t known => by cases known; decide,⟨fun t known => by cases known; decide,trivial⟩,trivial⟩⟩

end SandboxStack.Cc
