import SandboxStack.CTypes

namespace SandboxStack.Cc

-- The parts of a variable or function that expression code reads.
structure Obj where
  name : String
  ty : Ty
  isLocal : Bool
  offset : Int
  isFunction : Bool
  isTls : Bool
  deriving Repr

structure Member where
  ty : Ty
  offset : Nat
  isBitfield : Bool
  deriving Repr

-- A literal: `val`, and `fval` as the float and the double it rounds to.
structure Number where
  val : Int
  single : U32
  double : U64
  deriving DecidableEq, Repr

inductive UnaryKind where
  | neg | not | bitnot | addr | deref | cast
  deriving DecidableEq, Repr

inductive BinaryKind where
  | add | sub | mul | div | mod | bitand | bitor | bitxor | shl | shr
  | eq | ne | lt | le | logand | logor | comma | assign
  deriving DecidableEq, Repr

-- Expression nodes; `ty` is `none` for a node that has no type (yet). The kinds
-- gen_expr refuses are one constructor.
inductive Node where
  | nullExpr
  | num (ty : Option Ty) (n : Number)
  | var (ty : Option Ty) (v : Obj)
  | memzero (v : Obj)
  | unary (kind : UnaryKind) (ty : Option Ty) (lhs : Node)
  | binary (kind : BinaryKind) (ty : Option Ty) (lhs rhs : Node)
  | member (ty : Option Ty) (m : Member) (lhs : Node)
  | cond (ty : Option Ty) (cond yes no : Node)
  | funcall (ty : Option Ty) (funcTy : Ty) (lhs : Node) (args : List Node) (retBuffer : Option Obj)
  | unsupported (ty : Ty)

namespace Node

def ty : Node → Option Ty
  | .nullExpr | .memzero _ => none
  | .num ty _ | .var ty _ | .unary _ ty _ | .binary _ ty _ _ | .member ty _ _ | .cond ty _ _ _ | .funcall ty _ _ _ _ => ty
  | .unsupported ty => some ty

def newCast (e : Node) (ty : Ty) : Node := .unary .cast (some ty) e

-- Reading a field of a node that has no type crashes the compiler.
def typed (n : Node) : Except String Ty :=
  match n.ty with
  | some ty => .ok ty
  | none => .error "expression without a type"

end Node

-- Induction over nodes, the arguments of a call included.
@[elab_as_elim, induction_eliminator]
theorem Node.induct {P : Node → Prop} (nullExpr : P .nullExpr) (num : ∀ ty n, P (.num ty n)) (var : ∀ ty v, P (.var ty v))
    (memzero : ∀ v, P (.memzero v)) (unary : ∀ kind ty lhs, P lhs → P (.unary kind ty lhs))
    (binary : ∀ kind ty lhs rhs, P lhs → P rhs → P (.binary kind ty lhs rhs))
    (member : ∀ ty m lhs, P lhs → P (.member ty m lhs))
    (cond : ∀ ty c yes no, P c → P yes → P no → P (.cond ty c yes no))
    (funcall : ∀ ty funcTy lhs args retBuffer, P lhs → (∀ a ∈ args, P a) → P (.funcall ty funcTy lhs args retBuffer))
    (unsupported : ∀ ty, P (.unsupported ty)) (n : Node) : P n :=
  n.rec nullExpr num var memzero unary binary member cond funcall unsupported
    (fun _ none => nomatch none)
    (fun _ _ one more b present => (List.mem_cons.mp present).elim (fun same => same ▸ one) (more b))

inductive BinaryRule where
  | arithmetic | comparison | logical | shift | comma | assign

def BinaryKind.rule : BinaryKind → BinaryRule
  | .add | .sub | .mul | .div | .mod | .bitand | .bitor | .bitxor => .arithmetic
  | .eq | .ne | .lt | .le => .comparison
  | .logand | .logor => .logical
  | .shl | .shr => .shift
  | .comma => .comma
  | .assign => .assign

section
variable (T : Target)

-- add_type of a node whose operands are typed already.
def unaryType (kind : UnaryKind) (lhs : Node) : Except String Node :=
  match kind with
  | .neg => do
    let ty := getCommonType T (.int false) (← lhs.typed)
    return .unary .neg (some ty) (lhs.newCast ty)
  | .not => return .unary .not (some (.int false)) lhs
  | .bitnot => return .unary .bitnot lhs.ty lhs
  | .addr => do
    match ← lhs.typed with
    | .array base _ => return .unary .addr (some (.ptr base)) lhs
    | ty => return .unary .addr (some (.ptr ty)) lhs
  | .deref => do
    match (← lhs.typed).base with
    | none => .error "invalid pointer dereference"
    | some .void => .error "dereferencing a void pointer"
    | some base => return .unary .deref (some base) lhs
  | .cast => return .unary .cast none lhs

def binaryType (kind : BinaryKind) (lhs rhs : Node) : Except String Node :=
  match kind.rule with
  | .arithmetic => do
    let ty := getCommonType T (← lhs.typed) (← rhs.typed)
    return .binary kind (some ty) (lhs.newCast ty) (rhs.newCast ty)
  | .comparison => do
    let ty := getCommonType T (← lhs.typed) (← rhs.typed)
    return .binary kind (some (.int false)) (lhs.newCast ty) (rhs.newCast ty)
  | .logical => return .binary kind (some (.int false)) lhs rhs
  | .shift => return .binary kind lhs.ty lhs rhs
  | .comma => return .binary kind rhs.ty lhs rhs
  | .assign => do
    match ← lhs.typed with
    | .array _ _ => .error "not an lvalue"
    | .struct tag size align => return .binary kind (some (.struct tag size align)) lhs rhs
    | ty => return .binary kind (some ty) lhs (rhs.newCast ty)

def condType (c yes no : Node) : Except String Node := do
  let t ← yes.typed
  let e ← no.typed
  if t.isVoid ∨ e.isVoid then return .cond (some .void) c yes no
  else return .cond (some (getCommonType T t e)) c (yes.newCast (getCommonType T t e)) (no.newCast (getCommonType T t e))

mutual

def addType : Node → Except String Node
  | .num none n => return .num (some (.int false)) n
  | .var none v => return .var (some v.ty) v
  | .unary kind none lhs => do
    let lhs ← addType lhs
    unaryType T kind lhs
  | .binary kind none lhs rhs => do
    let lhs ← addType lhs
    let rhs ← addType rhs
    binaryType T kind lhs rhs
  | .member none m lhs => do
    let lhs ← addType lhs
    return .member (some m.ty) m lhs
  | .cond none c yes no => do
    let c ← addType c
    let yes ← addType yes
    let no ← addType no
    condType T c yes no
  | .funcall none (.func returnTy params isVariadic) lhs args retBuffer => do
    let lhs ← addType lhs
    let args ← addTypes args
    return .funcall (some returnTy) (.func returnTy params isVariadic) lhs args retBuffer
  | n => return n

def addTypes : List Node → Except String (List Node)
  | [] => return []
  | n :: rest => do
    let n ← addType n
    let rest ← addTypes rest
    return n :: rest

end

end

end SandboxStack.Cc
