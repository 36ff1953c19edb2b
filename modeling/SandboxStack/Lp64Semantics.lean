import SandboxStack.CSemantics
import SandboxStack.X86Machine

namespace SandboxStack.Cc.X86
open SandboxStack.X86 LittleEndian

-- The integer types of a target; a pointer is an unsigned number.
def intTypeOn (T : Target) : Ty → Option IntType
  | .char u => some ⟨8,u⟩
  | .short u => some ⟨16,u⟩
  | .int u => some ⟨32,u⟩
  | .enum => some ⟨32,false⟩
  | .long u => some ⟨8 * T.longSize,u⟩
  | .llong u => some ⟨64,u⟩
  | .ptr _ => some ⟨8 * T.ptrSize,true⟩
  | _ => none

def wordType (ty : Option Ty) : Option IntType := ty.bind (intTypeOn lp64)

def readWord (t : IntType) (m : Memory) (a : U64) : Int := t.wrap (readMem (t.bits / 8) m a)

def writeWord (t : IntType) (m : Memory) (a : U64) (z : Int) : Memory :=
  writeMem (t.bits / 8) m a (BitVec.ofInt t.bits z).toNat

section
variable (place : Obj → U64)

-- The value of an integer expression and the memory it leaves. C leaves the
-- order of the two operands of an operator open; the right one is taken first.
-- Arithmetic wraps around, but the remainder of a division that overflows is undefined.
def ceval64 : Node → Memory → CResult (Int × Memory)
  | .num ty n,m =>
    match wordType ty with
    | some t => .ok (t.wrap n.val,m)
    | none => .error .undefined
  | .var ty v,m =>
    match wordType ty with
    | some t => .ok (readWord t m (place v),m)
    | none => .error .undefined
  | .unary kind ty lhs,m =>
    match wordType ty with
    | none => .error .undefined
    | some t => do
      let (z,m) ← ceval64 lhs m
      return (← unaryMeaning false t kind z,m)
  | .binary .logand _ lhs rhs,m => do
    let (a,m) ← ceval64 lhs m
    if a = 0 then return (0,m) else
    let (b,m) ← ceval64 rhs m
    return (truth (b != 0),m)
  | .binary .logor _ lhs rhs,m => do
    let (a,m) ← ceval64 lhs m
    if a ≠ 0 then return (1,m) else
    let (b,m) ← ceval64 rhs m
    return (truth (b != 0),m)
  | .binary .comma _ lhs rhs,m => do
    let (_,m) ← ceval64 lhs m
    ceval64 rhs m
  | .binary .assign ty lhs rhs,m =>
    match wordType ty,lhs with
    | some t,.var _ v => do
      let (z,m) ← ceval64 rhs m
      return (z,writeWord t m (place v) z)
    | _,_ => .error .undefined
  | .binary kind ty lhs rhs,m =>
    match wordType ty with
    | none => .error .undefined
    | some t => do
      let (b,m) ← ceval64 rhs m
      let (a,m) ← ceval64 lhs m
      return (← arithmetic (kind == .mod) t kind a b,m)
  | .cond _ test yes no,m => do
    let (c,m) ← ceval64 test m
    if c ≠ 0 then ceval64 yes m else ceval64 no m
  | _,_ => .error .undefined

end

def isEnum : Option Ty → Bool
  | some .enum => true
  | _ => false

def isEight (ty : Option Ty) : Bool :=
  match wordType ty with
  | some t => t.bits == 64
  | none => false

-- The operands of a subtraction have its type, unless it is one of pointers.
def pointerSubs : Node → Prop
  | .unary _ _ lhs => pointerSubs lhs
  | .binary kind ty lhs rhs => pointerSubs lhs ∧ pointerSubs rhs ∧
      (kind = .sub → lhs.ty = ty ∧ rhs.ty = ty ∨ isEight lhs.ty ∧ isEight rhs.ty ∧ isEight ty)
  | .cond _ test yes no => pointerSubs test ∧ pointerSubs yes ∧ pointerSubs no
  | _ => True

def valueOf : CResult (Int × Memory) → Int
  | .ok (z,_) => z
  | .error _ => 0

def after (m : Memory) : CResult (Int × Memory) → Memory
  | .ok (_,m) => m
  | .error _ => m

section
variable (place : Obj → U64)

-- The 64-bit number that stands for the value of an enum-typed expression: its
-- operators work on 32 bits without a sign, its conversions keep what they are given.
def wide : Node → Memory → Int
  | .num _ n,_ => n.val
  | .unary .neg _ lhs,m => -wide lhs m
  | .unary .bitnot _ lhs,m => -wide lhs m - 1
  | .unary .cast _ lhs,m => if isEnum lhs.ty then wide lhs m else valueOf (ceval64 place lhs m)
  | .binary .comma _ lhs rhs,m => wide rhs (after m (ceval64 place lhs m))
  | .binary .assign _ _ rhs,m => wide rhs m
  | .binary kind ty lhs rhs,m => valueOf (ceval64 place (.binary kind ty lhs rhs) m) % 2 ^ 32
  | .cond _ test yes no,m =>
    let rest := after m (ceval64 place test m)
    if valueOf (ceval64 place test m) ≠ 0 then wide yes rest else wide no rest
  | n,m => valueOf (ceval64 place n m)

-- Every conversion from an enum to eight bytes that is evaluated finds the value itself.
def Settled : Node → Memory → Prop
  | .unary kind ty lhs,m => Settled lhs m ∧
      (kind = .cast → isEnum lhs.ty → isEight ty →
        ∀ z m', ceval64 place lhs m = .ok (z,m') → wide place lhs m % 2 ^ 64 = z % 2 ^ 64)
  | .binary .logand _ lhs rhs,m => Settled lhs m ∧ ∀ a m', ceval64 place lhs m = .ok (a,m') → a ≠ 0 → Settled rhs m'
  | .binary .logor _ lhs rhs,m => Settled lhs m ∧ ∀ a m', ceval64 place lhs m = .ok (a,m') → a = 0 → Settled rhs m'
  | .binary .comma _ lhs rhs,m => Settled lhs m ∧ ∀ a m', ceval64 place lhs m = .ok (a,m') → Settled rhs m'
  | .binary .assign _ _ rhs,m => Settled rhs m
  | .binary _ _ lhs rhs,m => Settled rhs m ∧ ∀ b m', ceval64 place rhs m = .ok (b,m') → Settled lhs m'
  | .cond _ test yes no,m => Settled test m ∧
      ∀ c m', ceval64 place test m = .ok (c,m') → if c ≠ 0 then Settled yes m' else Settled no m'
  | _,_ => True

end

end SandboxStack.Cc.X86
