import SandboxStack.CStmts
import SandboxStack.GenExpr

namespace SandboxStack.Cc
open Wasm

-- The control stack, innermost entry first. Entries of loops and `if` have no label.
structure Ctl where
  label : Option String
  id : Nat
  deriving DecidableEq, Repr

structure Control where
  entries : List Ctl
  counter : Nat
  deriving DecidableEq, Repr

namespace Control

def depth (k : Control) : Nat := k.entries.length

def push (label : Option String) (k : Control) : Gen Control := do
  pushCtl k.depth
  return ⟨⟨label,k.counter⟩ :: k.entries,k.counter + 1⟩

def pushAll : List String → Control → Gen Control
  | [],k => return k
  | label :: rest,k => do
    let k ← k.push (some label)
    pushAll rest k

def pop (k : Control) : Control := {k with entries := k.entries.tail}

def depthOfLabel (label : String) (k : Control) : Gen Nat :=
  match k.entries.findIdx? (·.label == some label) with
  | some i => .ok i
  | none => .error ("unsupported control flow: no enclosing block for label " ++ label ++
      " (only forward goto to a top-level label is supported)")

def depthOfId (id : Nat) (k : Control) : Gen Nat :=
  match k.entries.findIdx? (·.id == id) with
  | some i => .ok i
  | none => .error "internal error"

-- A label can only be closed while its block is the innermost one.
def closeLabel (label message : String) (k : Control) : Gen Control :=
  match k.entries with
  | e :: rest => if e.label = some label then .ok {k with entries := rest} else .error message
  | [] => .error message

end Control

section
variable (c : Context)

def genDiscarded (n : Node) (code : Gen Code) : Gen Body := do return [.code (droppedValue n (← code))]

def genReturned (lhs : Node) (code : Gen Code) : Gen Code := do
  let ty ← lhs.typed
  if ty.isStruct then return localGet 0 ++ (← code) ++ i32c (ty.size ilp32) ++ [.plain .memoryCopy]
  else return (← genExprAs lhs code (vclass (some c.returnTy))) ++ localSet c.rv

-- The comparison of the switched value, already on the stack, with one case.
def caseTest (wide : Bool) (k : Case) : Code :=
  if k.begins = k.ends then
    if wide then i64c k.begins ++ op (.i64Compare .eq) else i32c k.begins ++ op (.i32Compare .eq)
  else if wide then i64c k.begins ++ op (.i64 .sub) ++ i64c (k.ends - k.begins) ++ op (.i64Compare .leU)
  else i32c k.begins ++ op (.i32 .sub) ++ i32c (k.ends - k.begins) ++ op (.i32Compare .leU)

def genCases (wide : Bool) (scratch : Nat) (k : Control) : List Case → Gen Body
  | [] => return []
  | one :: rest => do
    let target ← k.depthOfLabel one.label
    let rest ← genCases wide scratch k rest
    return [.code (localGet scratch ++ caseTest wide one),.brIf target] ++ rest

-- The test at the top of a loop and the step at its end.
def genLoopTest (k : Control) (brk : String) : Option Node → Gen Body
  | none => return []
  | some cond => do
    let test ← genCond cond (genExpr c k.depth cond)
    return [.code (test ++ op .i32Eqz),.brIf (← k.depthOfLabel brk)]

def genLoopStep (k : Control) : Option Node → Gen Body
  | none => return []
  | some inc => genDiscarded inc (genExpr c k.depth inc)

mutual

def genStmt : Stmt → Control → Gen (Body × Control)
  | .block body,k => genStmts body k
  | .exprStmt lhs,k => do return (← genDiscarded lhs (genExpr c k.depth lhs),k)
  | .ifThen cond yes,k => do
    let test ← genCond cond (genExpr c k.depth cond)
    let (yes,k) ← genStmt yes (← k.push none)
    return ([.code test,.ifThen] ++ yes ++ [.close],k.pop)
  | .ifElse cond yes no,k => do
    let test ← genCond cond (genExpr c k.depth cond)
    let (yes,k) ← genStmt yes (← k.push none)
    let (no,k) ← genStmt no k
    return ([.code test,.ifThen] ++ yes ++ [.elseThen] ++ no ++ [.close],k.pop)
  | .forLoop init cond inc body brk cont,k => do
    let (init,k) ← genStmt init k
    let outer ← k.push (some brk)
    let top ← outer.push none
    let test ← genLoopTest c top brk cond
    let (body,k) ← genStmt body (← top.push (some cont))
    let k := k.pop
    let step ← genLoopStep c k inc
    return (init ++ [.block,.loop] ++ test ++ [.block] ++ body ++ [.close] ++ step ++
      [.br (← k.depthOfId outer.counter),.close,.close],k.pop.pop)
  | .doWhile body cond brk cont,k => do
    let outer ← k.push (some brk)
    let top ← outer.push none
    let (body,k) ← genStmt body (← top.push (some cont))
    let k := k.pop
    let test ← genCond cond (genExpr c k.depth cond)
    return ([.block,.loop,.block] ++ body ++ [.close,.code test,.brIf (← k.depthOfId outer.counter),.close,.close],k.pop.pop)
  | .switch cond body brk cases default,k => do
    let vc := vclass cond.ty
    let value ← genExpr c k.depth cond
    let scratch ← scratchLocal c vc
    let labels := collectCases body
    if labels.length > 1024 then .error "too many cases" else
    let outer ← k.push (some brk)
    let inner ← outer.pushAll labels.reverse
    let tests ← genCases (vc == some .i64) scratch inner cases
    let target ← inner.depthOfLabel (default.getD brk)
    let (body,k) ← genStmt body inner
    let k ← k.closeLabel brk "unsupported switch shape (a case is nested inside another statement)"
    return ([.code (value ++ localSet scratch),.block] ++ labels.map (fun _ => .block) ++ tests ++ [.br target] ++
      body ++ [.close],k)
  | .caseOf label lhs,k => do
    let k ← k.closeLabel label "unsupported switch shape (case nested inside another statement)"
    let (lhs,k) ← genStmt lhs k
    return ([.close] ++ lhs,k)
  | .goto label,k => do return ([.br (← k.depthOfLabel label)],k)
  | .label label lhs,k => do
    let k ← k.closeLabel label "unsupported label position (labels must be at the top level of the function body)"
    let (lhs,k) ← genStmt lhs k
    return ([.close] ++ lhs,k)
  | .ret none,k => do return ([.br (← k.depthOfLabel ".ret")],k)
  | .ret (some lhs),k => do
    let code ← genReturned c lhs (genExpr c k.depth lhs)
    return ([.code code,.br (← k.depthOfLabel ".ret")],k)
  | .unsupported,_ => .error "unsupported statement"

def genStmts : List Stmt → Control → Gen (Body × Control)
  | [],k => return ([],k)
  | s :: rest,k => do
    let (code,k) ← genStmt s k
    let (rest,k) ← genStmts rest k
    return (code ++ rest,k)

end

end

-- assign_lvar_offsets: the offsets of the locals from `off` on, and where they end.
def lvarOffsets : Nat → List Local → Gen (List Nat × Nat)
  | off,[] => return ([],off)
  | off,v :: rest => do
    if v.var.ty.isVla then .error "VLA is not supported" else
    let off := alignTo off (alignment v.align)
    let (offsets,top) ← lvarOffsets (off + v.var.ty.size ilp32) rest
    return (off :: offsets,top)

def assignLvarOffsets (locals : List Local) : Gen (List Nat × Nat) := do
  let (offsets,top) ← lvarOffsets 0 locals
  return (offsets,alignTo top 16)

-- Parameters are spilled into their frame slots, the i-th from local i.
def spillParams (c : Context) : Nat → List Obj → Gen Code
  | _,[] => return []
  | i,p :: rest => do
    let spilled ← if p.ty.isStruct then pure (i32c (p.ty.size ilp32) ++ [.plain .memoryCopy]) else store p.ty
    let rest ← spillParams c (i + 1) rest
    return fpPlus c p.offset ++ localGet i ++ spilled ++ rest

def spillVaArea (c : Context) (i : Nat) : Option Obj → Gen Code
  | some area => return fpPlus c area.offset ++ localGet i ++ [.plain (.store .i32Store 2)]
  | none => .error "variadic function without an argument area"

-- The declared locals after the parameters, as runs of one type, and the code.
structure FunctionBody where
  locals : List (Nat × ValueType)
  body : Body

def resultClass (returnTy : Ty) : Option ValueType := if returnTy.isStruct then none else vclass (some returnTy)

def prologue (c : Context) (frameSize : Nat) : Code :=
  [.plain .globalGet] ++ (if frameSize ≠ 0 then i32c frameSize ++ op (.i32 .sub) else []) ++
    localTee c.fp ++ [.plain .globalSet]

def epilogue (c : Context) (frameSize : Nat) : Code :=
  localGet c.fp ++ (if frameSize ≠ 0 then i32c frameSize ++ op (.i32 .add) else []) ++ [.plain .globalSet] ++
    if resultClass c.returnTy ≠ none then localGet c.rv else []

def genParams (c : Context) (fn : Global) : Gen Code := do
  let params ← spillParams c 0 fn.params
  if fn.isVariadic then return params ++ (← spillVaArea c fn.params.length fn.vaArea)
  else return params

-- Blocks for the forward gotos to top-level labels, the first label's innermost.
def genBody (c : Context) (fn : Global) : Gen Body := do
  let labels := topLabels fn.body
  if labels.length > 256 then .error "too many labels" else
  let start ← Control.push (some ".ret") ⟨[],0⟩
  let start ← start.pushAll labels.reverse
  let (body,k) ← genStmt c fn.body start
  if k.depth ≠ 1 then .error ("internal error: unbalanced control stack in " ++ fn.name) else
  return [.block] ++ labels.map (fun _ => .block) ++ body ++ [.close]

def genFunction (c : Context) (fn : Global) : Gen FunctionBody := do
  let (_,frameSize) ← assignLvarOffsets fn.locals
  let params ← genParams c fn
  let body ← genBody c fn
  return {
    locals := [(3,.i32),(1,.i64),(1,.f32),(1,.f64)] ++ (resultClass c.returnTy).toList.map (1,·)
    body := [.code (prologue c frameSize ++ params)] ++ body ++ [.code (epilogue c frameSize)]
  }

end SandboxStack.Cc
