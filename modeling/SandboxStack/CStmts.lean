import SandboxStack.GenExpr

namespace SandboxStack.Cc
open Wasm

-- One entry of a switch's list of cases. `begins` and `ends` are the range.
structure Case where
  begins : Int
  ends : Int
  label : String
  deriving DecidableEq, Repr

-- Statement nodes. `brk` and `cont` are unique labels; break and continue are
-- gotos to them. `cases` is the list case_next makes, the last case first.
-- A loop without an initialiser has the empty block.
inductive Stmt where
  | block (body : List Stmt)
  | exprStmt (lhs : Node)
  | ifThen (cond : Node) (yes : Stmt)
  | ifElse (cond : Node) (yes no : Stmt)
  | forLoop (init : Stmt) (cond inc : Option Node) (body : Stmt) (brk cont : String)
  | doWhile (body : Stmt) (cond : Node) (brk cont : String)
  | switch (cond : Node) (body : Stmt) (brk : String) (cases : List Case) (default : Option String)
  | caseOf (label : String) (lhs : Stmt)
  | goto (label : String)
  | label (label : String) (lhs : Stmt)
  | ret (lhs : Option Node)
  | unsupported

-- Induction over statements, those of a block included.
@[elab_as_elim, induction_eliminator]
theorem Stmt.induct {P : Stmt → Prop} (block : ∀ body, (∀ s ∈ body, P s) → P (.block body))
    (exprStmt : ∀ lhs, P (.exprStmt lhs)) (ifThen : ∀ c yes, P yes → P (.ifThen c yes))
    (ifElse : ∀ c yes no, P yes → P no → P (.ifElse c yes no))
    (forLoop : ∀ init c inc body brk cont, P init → P body → P (.forLoop init c inc body brk cont))
    (doWhile : ∀ body c brk cont, P body → P (.doWhile body c brk cont))
    (switch : ∀ c body brk cases default, P body → P (.switch c body brk cases default))
    (caseOf : ∀ l lhs, P lhs → P (.caseOf l lhs)) (goto : ∀ l, P (.goto l))
    (label : ∀ l lhs, P lhs → P (.label l lhs)) (ret : ∀ lhs, P (.ret lhs)) (unsupported : P .unsupported) (s : Stmt) : P s :=
  s.rec block exprStmt ifThen ifElse forLoop doWhile switch caseOf goto label ret unsupported
    (fun _ none => nomatch none)
    (fun _ _ one more t present => (List.mem_cons.mp present).elim (fun same => same ▸ one) (more t))

-- A relocation's label points into the name of a variable or function, or is
-- the unique name of a statement label.
inductive Label where
  | name (of : Obj)
  | unique (text : String)
  deriving Repr

def Label.text : Label → String
  | .name v => v.name
  | .unique text => text

structure Relocation where
  offset : Nat
  label : Label
  addend : Int
  deriving Repr

-- A local variable carries the offset assign_lvar_offsets gives it.
structure Local where
  var : Obj
  align : Int
  deriving Repr

-- A function or a global variable, with what the parser collected about it.
structure Global where
  var : Obj
  align : Int
  isDefinition : Bool
  initData : Option (List U8)
  rel : List Relocation
  params : List Obj
  locals : List Local
  vaArea : Option Obj
  body : Stmt

abbrev Program := List Global

namespace Global

def name (g : Global) : String := g.var.name
def isFunction (g : Global) : Bool := g.var.isFunction

-- fn->ty of a function.
def returnTy (g : Global) : Ty :=
  match g.var.ty with
  | .func returnTy _ _ => returnTy
  | _ => .void

def isVariadic (g : Global) : Bool :=
  match g.var.ty with
  | .func _ _ isVariadic => isVariadic
  | _ => false

end Global

-- The alignment a variable is placed with.
def alignment (align : Int) : Nat := if align < 1 then 1 else align.toNat

-- The cases at the top level of a switch body, in source order; a case's
-- statement may itself be a case.
def caseChain : Stmt → List String
  | .caseOf label lhs => label :: caseChain lhs
  | _ => []

def collectCases : Stmt → List String
  | .block body => body.flatMap caseChain
  | s => caseChain s

-- The labels at the top level of a function body.
def topLabels : Stmt → List String
  | .block body => body.filterMap fun
    | .label label _ => some label
    | _ => none
  | _ => []

end SandboxStack.Cc
