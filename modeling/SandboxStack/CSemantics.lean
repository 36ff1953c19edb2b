import SandboxStack.CNodes
import SandboxStack.IntegerTypes

namespace SandboxStack.Cc
open LinearMemory LittleEndian

-- ILP32; a pointer is an unsigned number.
def Ty.intType : Ty → Option IntType
  | .char u => some ⟨8,u⟩
  | .short u => some ⟨16,u⟩
  | .int u | .long u => some ⟨32,u⟩
  | .llong u => some ⟨64,u⟩
  | .enum => some ⟨32,false⟩
  | .ptr _ => some ⟨32,true⟩
  | _ => none

def intTypeOf (ty : Option Ty) : Option IntType := ty.bind Ty.intType

-- `trap` is a division by zero or one whose quotient the type cannot hold;
-- `undefined` is other undefined behaviour, or a node outside the integer expressions.
inductive CStop where
  | trap | undefined
  deriving DecidableEq, Repr

abbrev CResult := Except CStop

-- A result out of range is reduced. With `strict`, signed overflow is undefined instead.
def reduce (strict : Bool) (t : IntType) (z : Int) : CResult Int :=
  if strict = true ∧ t.unsigned = false ∧ t.wrap z ≠ z then .error .undefined else .ok (t.wrap z)

def bitwise (t : IntType) (f : BitVec t.bits → BitVec t.bits → BitVec t.bits) (a b : Int) : Int :=
  t.value (f (BitVec.ofInt t.bits a) (BitVec.ofInt t.bits b))

def truth (b : Bool) : Int := if b then 1 else 0

-- The meaning of a binary operator on C values, `t` being the type it is carried out in.
def arithmetic (strict : Bool) (t : IntType) (kind : BinaryKind) (a b : Int) : CResult Int :=
  match kind with
  | .add => reduce strict t (a + b)
  | .sub => reduce strict t (a - b)
  | .mul => reduce strict t (a * b)
  | .div => if b = 0 ∨ t.unsigned = false ∧ t.wrap (a.tdiv b) ≠ a.tdiv b then .error .trap else .ok (a.tdiv b)
  | .mod =>
    if b = 0 then .error .trap
    else if strict = true ∧ t.unsigned = false ∧ t.wrap (a.tdiv b) ≠ a.tdiv b then .error .undefined
    else .ok (a.tmod b)
  | .bitand => .ok (bitwise t (· &&& ·) a b)
  | .bitor => .ok (bitwise t (· ||| ·) a b)
  | .bitxor => .ok (bitwise t (· ^^^ ·) a b)
  | .shl => if b < 0 ∨ t.bits ≤ b then .error .undefined else reduce strict t (a * 2 ^ b.toNat)
  | .shr => if b < 0 ∨ t.bits ≤ b then .error .undefined else .ok (a / 2 ^ b.toNat)
  | .eq => .ok (truth (a == b))
  | .ne => .ok (truth (a != b))
  | .lt => .ok (truth (decide (a < b)))
  | .le => .ok (truth (decide (a ≤ b)))
  | _ => .error .undefined

def unaryMeaning (strict : Bool) (t : IntType) (kind : UnaryKind) (z : Int) : CResult Int :=
  match kind with
  | .neg => reduce strict t (-z)
  | .not => .ok (truth (z == 0))
  | .bitnot => .ok (t.wrap (-z - 1))
  | .cast => .ok (t.wrap z)
  | _ => .error .undefined

def readInt (t : IntType) (m : Memory) (a : Nat) : Int := t.wrap (leValue (m.read a (t.bits / 8)))

def writeInt (t : IntType) (m : Memory) (a : Nat) (z : Int) : Memory :=
  m.write a (leBytes (t.bits / 8) (BitVec.ofInt t.bits z).toNat)

section
variable (strict : Bool) (place : Obj → Nat)

-- The value of an integer expression and the memory it leaves, operands from
-- left to right. `place` says where a variable is stored.
def ceval : Node → Memory → CResult (Int × Memory)
  | .num ty n,m =>
    match intTypeOf ty with
    | some t => .ok (t.wrap n.val,m)
    | none => .error .undefined
  | .var ty v,m =>
    match intTypeOf ty with
    | some t => .ok (readInt t m (place v),m)
    | none => .error .undefined
  | .unary kind ty lhs,m =>
    match intTypeOf ty with
    | none => .error .undefined
    | some t => do
      let (z,m) ← ceval lhs m
      return (← unaryMeaning strict t kind z,m)
  | .binary .logand _ lhs rhs,m => do
    let (a,m) ← ceval lhs m
    if a = 0 then return (0,m) else
    let (b,m) ← ceval rhs m
    return (truth (b != 0),m)
  | .binary .logor _ lhs rhs,m => do
    let (a,m) ← ceval lhs m
    if a ≠ 0 then return (1,m) else
    let (b,m) ← ceval rhs m
    return (truth (b != 0),m)
  | .binary .comma _ lhs rhs,m => do
    let (_,m) ← ceval lhs m
    ceval rhs m
  | .binary .assign ty lhs rhs,m =>
    match intTypeOf ty,lhs with
    | some t,.var _ v => do
      let (z,m) ← ceval rhs m
      return (z,writeInt t m (place v) z)
    | _,_ => .error .undefined
  | .binary kind ty lhs rhs,m =>
    match intTypeOf ty with
    | none => .error .undefined
    | some t => do
      let (a,m) ← ceval lhs m
      let (b,m) ← ceval rhs m
      return (← arithmetic strict t kind a b,m)
  | .cond _ test yes no,m => do
    let (c,m) ← ceval test m
    if c ≠ 0 then ceval yes m else ceval no m
  | _,_ => .error .undefined

end

-- Integer types of 4 or 8 bytes, and pointers.
def isWord (ty : Option Ty) : Bool :=
  match intTypeOf ty with
  | some t => t.bits == 32 || t.bits == 64
  | none => false

def isVariable : Node → Bool
  | .var _ v => !v.isFunction
  | _ => false

-- The expressions all of whose nodes have such types, built from the operators that need no address.
def wordTree : Node → Bool
  | .num ty _ => isWord ty
  | .var ty v => isWord ty && !v.isFunction
  | .unary kind ty lhs => (kind != .addr && kind != .deref) && isWord ty && wordTree lhs
  | .binary kind ty lhs rhs => (kind != .assign || isVariable lhs) && isWord ty && wordTree lhs && wordTree rhs
  | .cond ty test yes no => isWord ty && wordTree test && wordTree yes && wordTree no
  | _ => false

-- What add_type and the parser's own presets leave of the types of a node and
-- its operands. A preset SUB (pointer operands) is the one operator whose operands keep their own types.
def Typed : Node → Prop
  | .var ty v => ty = some v.ty
  | .unary kind ty lhs => Typed lhs ∧
      match kind with
      | .neg => lhs.ty = ty
      | .not => ty = some (.int false)
      | .bitnot => ty = lhs.ty
      | _ => True
  | .binary kind ty lhs rhs => Typed lhs ∧ Typed rhs ∧
      match kind.rule with
      | .arithmetic => kind = .sub ∨ lhs.ty = ty ∧ rhs.ty = ty
      | .comparison => lhs.ty = rhs.ty ∧ ty = some (.int false)
      | .logical => ty = some (.int false)
      | .shift => ty = lhs.ty
      | .comma => ty = rhs.ty
      | .assign => ty = lhs.ty ∧ (rhs.ty = ty ∨ (ty.map Ty.isStruct).getD false)
  | .cond ty test yes no => Typed test ∧ Typed yes ∧ Typed no ∧
      (yes.ty = ty ∧ no.ty = ty ∨ ty = some .void)
  | _ => True

-- A tree as the parser hands it to add_type: what has a type already was typed with its operands.
def Parsed : Node → Prop
  | .unary kind none lhs => kind ≠ .cast ∧ Parsed lhs
  | .binary _ none lhs rhs => Parsed lhs ∧ Parsed rhs
  | .cond none test yes no => Parsed test ∧ Parsed yes ∧ Parsed no
  | .var none _ => True
  | n => Typed n

section
variable {strict : Bool} {place : Obj → Nat} {ty : Ty} {t : IntType} {m : Memory} {lhs : Node}

theorem known_type (known : ty.intType = some t) : intTypeOf (some ty) = some t := known

theorem ceval_unary (known : ty.intType = some t) (kind : UnaryKind) :
    ceval strict place (.unary kind (some ty) lhs) m =
      (ceval strict place lhs m >>= fun p => unaryMeaning strict t kind p.1 >>= fun z => .ok (z,p.2)) := by
  rw [ceval,known_type known]
  rfl

end

end SandboxStack.Cc
