import SandboxStack.CSemantics

namespace SandboxStack.Cc
open LinearMemory

-- How eval ends without a value: by a message, by a host division that faults,
-- or by a host shift whose count C does not define.
inductive EvalStop where
  | rejected (message : String) | fault | undefined
  deriving DecidableEq, Repr

abbrev Eval := Except EvalStop U64

def notConstant : Eval := .error (.rejected "not a compile-time constant")

def hostTruth (b : Bool) : U64 := if b then 1 else 0

def hostDivide (u : Bool) (a b : U64) : Eval :=
  if b = 0 ∨ u = false ∧ a = BitVec.intMin 64 ∧ b = -1 then .error .fault
  else .ok (if u then a / b else a.sdiv b)

def hostModulo (u : Bool) (a b : U64) : Eval :=
  if b = 0 ∨ u = false ∧ a = BitVec.intMin 64 ∧ b = -1 then .error .fault
  else .ok (if u then a % b else a.srem b)

def hostShift (shift : U64 → Nat → U64) (a b : U64) : Eval :=
  if b.toInt < 0 ∨ 64 ≤ b.toInt then .error .undefined else .ok (shift a b.toNat)

-- The operators of eval2 on values of int64_t; `ty` is the node's type, `operandTy` its left operand's.
def evalBinary (kind : BinaryKind) (ty operandTy : Ty) (a b : U64) : Eval :=
  match kind with
  | .add => .ok (a + b)
  | .sub => .ok (a - b)
  | .mul => .ok (a * b)
  | .div => hostDivide ty.isUnsigned a b
  | .mod => hostModulo ty.isUnsigned a b
  | .bitand => .ok (a &&& b)
  | .bitor => .ok (a ||| b)
  | .bitxor => .ok (a ^^^ b)
  | .shl => hostShift (fun a n => a <<< n) a b
  | .shr =>
    if ty.isUnsigned ∧ ty.size ilp32 = 8 then hostShift (fun a n => a >>> n) a b
    else hostShift (fun a n => a.sshiftRight n) a b
  | .eq => .ok (hostTruth (a == b))
  | .ne => .ok (hostTruth (a != b))
  | .lt => .ok (hostTruth (if operandTy.isUnsigned then a.ult b else a.slt b))
  | .le => .ok (hostTruth (if operandTy.isUnsigned then a.ule b else a.sle b))
  | .logand | .logor | .comma | .assign => notConstant

def evalCast (ty : Ty) (v : U64) : U64 :=
  if ty.isInteger then
    match ty.size ilp32 with
    | 1 => if ty.isUnsigned then (v.setWidth 8).setWidth 64 else (v.setWidth 8).signExtend 64
    | 2 => if ty.isUnsigned then (v.setWidth 16).setWidth 64 else (v.setWidth 16).signExtend 64
    -- uint32_t : int32_t is of type uint32_t on both arms
    | 4 => (v.setWidth 32).setWidth 64
    | _ => v
  else v

def flonumTyped (n : Node) : Bool := (n.ty.map Ty.isFlonum).getD false

section
variable (evalDouble : Node → Eval)

mutual

-- eval2 with no place for a label. The tree is one add_type has been over.
def eval2 : Node → Eval
  | .num ty n => if flonumTyped (.num ty n) then evalDouble (.num ty n) else .ok (BitVec.ofInt 64 n.val)
  | .unary kind ty lhs =>
    if flonumTyped (.unary kind ty lhs) then evalDouble (.unary kind ty lhs) else
    match kind with
    | .neg => do return -(← eval2 lhs)
    | .not => do return hostTruth ((← eval2 lhs) == 0)
    | .bitnot => do return ~~~(← eval2 lhs)
    | .cast => do
      let v ← eval2 lhs
      match ty with
      | some ty => return evalCast ty v
      | none => notConstant
    | .addr => evalRval lhs
    | .deref => notConstant
  | .binary kind ty lhs rhs =>
    if flonumTyped (.binary kind ty lhs rhs) then evalDouble (.binary kind ty lhs rhs) else
    match kind with
    | .logand => do
      if (← eval2 lhs) = 0 then return 0 else return hostTruth ((← eval2 rhs) != 0)
    | .logor => do
      if (← eval2 lhs) ≠ 0 then return 1 else return hostTruth ((← eval2 rhs) != 0)
    | .comma => eval2 rhs
    | .assign => notConstant
    | kind => do
      let a ← eval2 lhs
      let b ← eval2 rhs
      match ty,lhs.ty with
      | some ty,some operandTy => evalBinary kind ty operandTy a b
      | _,_ => notConstant
  | .cond ty c yes no =>
    if flonumTyped (.cond ty c yes no) then evalDouble (.cond ty c yes no) else do
    if (← eval2 c) ≠ 0 then eval2 yes else eval2 no
  | _ => notConstant

-- The address of a global variable would be stored through the null label.
def evalRval : Node → Eval
  | .var _ v => if v.isLocal then notConstant else .error .fault
  | .unary .deref _ lhs => eval2 lhs
  | .member _ m lhs => do return (← evalRval lhs) + BitVec.ofNat 64 m.offset
  | _ => .error (.rejected "invalid initializer")

end

-- const_expr on the tree the parser built.
def constExpr (n : Node) : Eval :=
  match addType ilp32 n with
  | .ok n => eval2 evalDouble n
  | .error message => .error (.rejected message)

end

section
variable {d : Node → Eval} {n lhs rhs : Node} {ty tl : Ty} {op : BinaryKind}

theorem notFlonum (type : n.ty = some ty) (integer : ty.isInteger = true) : flonumTyped n = false := by
  rw [flonumTyped,type]
  cases ty <;> simp_all [Ty.isInteger,Ty.isFlonum]

theorem eval_unary {kind : UnaryKind} (integer : ty.isInteger = true) {x : U64} (operand : eval2 d lhs = .ok x) :
    eval2 d (.unary kind (some ty) lhs) =
      match kind with
      | .neg => .ok (-x)
      | .not => .ok (hostTruth (x == 0))
      | .bitnot => .ok (~~~x)
      | .cast => .ok (evalCast ty x)
      | .addr => evalRval d lhs
      | .deref => notConstant := by
  have integral : flonumTyped (.unary kind (some ty) lhs) = false := notFlonum rfl integer
  cases kind <;> simp only [eval2,integral,operand] <;> rfl

theorem eval_binary (integer : ty.isInteger = true) (left : lhs.ty = some tl)
    (plain : op.rule = .arithmetic ∨ op.rule = .comparison ∨ op.rule = .shift) {x y : U64}
    (one : eval2 d lhs = .ok x) (two : eval2 d rhs = .ok y) :
    eval2 d (.binary op (some ty) lhs rhs) = evalBinary op ty tl x y := by
  have integral : flonumTyped (.binary op (some ty) lhs rhs) = false := notFlonum rfl integer
  cases op <;> simp [BinaryKind.rule] at plain <;> simp only [eval2,integral,left,one,two] <;> rfl

end

-- The C value of an expression without variables, undefined on any undefined behaviour.
def cvalue (n : Node) : CResult Int := (ceval true (fun _ => 0) n ⟨fun _ => 0,0,0,Nat.le_refl _,by decide⟩).map Prod.fst

def valueOf (n : Node) : Int :=
  match cvalue n with
  | .ok z => z
  | .error _ => 0

def isConstType (ty : Option Ty) : Bool := isWord ty && (ty.map Ty.isInteger).getD false

-- The 64 bits the parser keeps for a literal are its value in the literal's type.
def literalFits (ty : Option Ty) (v : Int) : Bool :=
  match intTypeOf ty with
  | some t => v % 2 ^ 64 == t.wrap v % 2 ^ 64
  | none => false

-- Integer constant expressions of types of 4 and 8 bytes.
def constTree : Node → Bool
  | .num ty n => isConstType ty && literalFits ty n.val
  | .unary kind ty lhs => (kind != .addr && kind != .deref) && isConstType ty && constTree lhs
  | .binary kind ty lhs rhs => kind != .assign && isConstType ty && constTree lhs && constTree rhs
  | .cond ty test yes no => isConstType ty && constTree test && constTree yes && constTree no
  | _ => false

def CastTo (ty : Option Ty) (n : Node) : Prop := ∃ e, n = .unary .cast ty e

-- The conversions add_type puts around operands.
def Converted : Node → Prop
  | .num _ _ => True
  | .unary kind ty lhs => Converted lhs ∧ (kind = .neg → CastTo ty lhs)
  | .binary kind ty lhs rhs => Converted lhs ∧ Converted rhs ∧
      match kind.rule with
      | .arithmetic => CastTo ty lhs ∧ CastTo ty rhs
      | .comparison => ∃ ty', CastTo ty' lhs ∧ CastTo ty' rhs
      | _ => True
  | .cond ty test yes no => Converted test ∧ Converted yes ∧ Converted no ∧
      (ty = some .void ∨ CastTo ty yes ∧ CastTo ty no)
  | _ => True

-- A constant expression as the parser hands it to add_type. What has a type
-- already was typed with its operands: a literal, a cast and its operand, an
-- operand of new_add or new_sub.
def ConstParsed : Node → Prop
  | .unary kind none lhs => kind ≠ .cast ∧ ConstParsed lhs
  | .binary _ none lhs rhs => ConstParsed lhs ∧ ConstParsed rhs
  | .cond none test yes no => ConstParsed test ∧ ConstParsed yes ∧ ConstParsed no
  | .var none _ => True
  | n => Typed n ∧ Converted n

def isNumeric (ty : Option Ty) : Bool := (ty.map fun ty => ty.isInteger || ty.isFlonum).getD false

-- new_add and new_sub of numbers; `none` is arithmetic on pointers.
def newNumeric (kind : BinaryKind) (lhs rhs : Node) : Except String (Option Node) := do
  let lhs ← addType ilp32 lhs
  let rhs ← addType ilp32 rhs
  return if isNumeric lhs.ty && isNumeric rhs.ty then some (.binary kind none lhs rhs) else none

def newAdd (lhs rhs : Node) : Except String (Option Node) := newNumeric .add lhs rhs

def newSub (lhs rhs : Node) : Except String (Option Node) := newNumeric .sub lhs rhs

def wideType (ty : Option Ty) : Bool :=
  match intTypeOf ty with
  | some t => t.bits == 64
  | none => false

def signedWord (ty : Option Ty) : Bool :=
  match intTypeOf ty with
  | some t => t.bits == 32 && !t.unsigned
  | none => false

-- The residue of a value of 4 bytes that a cast leaves.
def low (z : Int) : Int := z % 2 ^ 32

-- Whether the unreduced 64 bits of an expression are its C value, by the C values
-- of its operands: no cast to 4 bytes of a negative value, no operation whose
-- result on the residues of its operands is not its own value.
def exact : Node → Bool
  | .num _ _ => true
  | .unary kind ty lhs => wideType ty ||
    match kind with
    | .neg => decide (-low (valueOf lhs) = valueOf (.unary kind ty lhs))
    | .bitnot => signedWord ty && exact lhs
    | .cast => decide (0 ≤ valueOf (.unary kind ty lhs))
    | _ => true
  | .binary kind ty lhs rhs => wideType ty ||
    match kind with
    | .add => decide (low (valueOf lhs) + low (valueOf rhs) = valueOf (.binary kind ty lhs rhs))
    | .sub => decide (low (valueOf lhs) - low (valueOf rhs) = valueOf (.binary kind ty lhs rhs))
    | .mul => decide (low (valueOf lhs) * low (valueOf rhs) = valueOf (.binary kind ty lhs rhs))
    | .bitand | .bitor | .bitxor => decide (0 ≤ valueOf (.binary kind ty lhs rhs))
    | .shl => exact lhs && decide (valueOf lhs * 2 ^ (valueOf rhs).toNat = valueOf (.binary kind ty lhs rhs))
    | .comma => exact rhs
    | _ => true
  | .cond ty test yes no => wideType ty || if valueOf test ≠ 0 then exact yes else exact no
  | _ => true

def testable (n : Node) : Bool := exact n || decide (valueOf n ≠ 0)

-- Whether each operand that eval2 evaluates and reads beyond its low 32 bits is
-- exact: those of conversions to 8 bytes and of shifts, those tested against
-- zero, and, not being negative, those of signed division and comparison.
def clean : Node → Bool
  | .num _ _ => true
  | .unary kind ty lhs => clean lhs &&
    match kind with
    | .not => testable lhs
    | .cast => !wideType ty || exact lhs
    | _ => true
  | .binary kind ty lhs rhs =>
    match kind with
    | .logand => clean lhs && testable lhs && (decide (valueOf lhs = 0) || clean rhs && testable rhs)
    | .logor => clean lhs && testable lhs && (decide (valueOf lhs ≠ 0) || clean rhs && testable rhs)
    | .comma => clean rhs
    | .div | .mod => clean lhs && clean rhs && (!signedWord ty || decide (0 ≤ valueOf lhs ∧ 0 ≤ valueOf rhs))
    | .lt | .le => clean lhs && clean rhs && (!signedWord lhs.ty || decide (0 ≤ valueOf lhs ↔ 0 ≤ valueOf rhs))
    | .shl => clean lhs && clean rhs && exact rhs
    | .shr => clean lhs && clean rhs && exact lhs && exact rhs
    | _ => clean lhs && clean rhs
  | .cond _ test yes no => clean test && testable test && if valueOf test ≠ 0 then clean yes else clean no
  | _ => true

end SandboxStack.Cc
