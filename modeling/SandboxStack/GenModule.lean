import SandboxStack.GenStmt
import SandboxStack.Leb128

namespace SandboxStack.Cc
open Wasm LittleEndian Leb128

abbrev Bytes := List U8

-- What code refers to by a number it has to be given: a function it calls, a
-- function type it calls through, or a function whose address it takes.
inductive Use where
  | call (name : String)
  | indirect (funcTy : Ty)
  | address (name : String)

-- The uses of a node as an address and as a value, in the order gen_addr and
-- gen_expr emit them.
structure Uses where
  addr : List Use
  value : List Use

def funcallUses (funcTy : Ty) (lhs : Node) (lhsUses : List Use) (args : List (List Use)) : List Use :=
  match (callee lhs).map Obj.name with
  | some "__builtin_wasm_memory_size" => args.flatten
  | some "__builtin_wasm_memory_grow" => (args.take 2).flatten
  | _ =>
    match callee lhs with
    | some fn => args.flatten ++ [.call fn.name]
    | none => args.flatten ++ lhsUses ++ [.indirect funcTy]

def varUses (v : Obj) : List Use := if v.isFunction && !v.isLocal then [.address v.name] else []

mutual

def uses : Node → Uses
  | .nullExpr | .num _ _ | .memzero _ | .unsupported _ => ⟨[],[]⟩
  | .var _ v => ⟨varUses v,varUses v⟩
  | .unary .addr _ lhs => ⟨[],(uses lhs).addr⟩
  | .unary .deref _ lhs => ⟨(uses lhs).value,(uses lhs).value⟩
  | .unary _ _ lhs => ⟨[],(uses lhs).value⟩
  | .binary .comma _ lhs rhs => ⟨(uses lhs).value ++ (uses rhs).addr,(uses lhs).value ++ (uses rhs).value⟩
  | .binary .assign _ lhs rhs => ⟨(uses lhs).addr ++ (uses rhs).value,(uses lhs).addr ++ (uses rhs).value⟩
  | .binary _ _ lhs rhs => ⟨[],(uses lhs).value ++ (uses rhs).value⟩
  | .member _ _ lhs => ⟨(uses lhs).addr,(uses lhs).addr⟩
  | .cond _ c yes no =>
    let all := (uses c).value ++ (uses yes).value ++ (uses no).value
    ⟨all,all⟩
  | .funcall _ funcTy lhs args _ =>
    let all := funcallUses funcTy lhs (uses lhs).value (argUses args)
    ⟨all,all⟩

def argUses : List Node → List (List Use)
  | [] => []
  | a :: rest => (uses a).value :: argUses rest

end

def valueUses : Option Node → List Use
  | none => []
  | some n => (uses n).value

mutual

def stmtUses : Stmt → List Use
  | .block body => stmtsUses body
  | .exprStmt lhs => (uses lhs).value
  | .ifThen cond yes => (uses cond).value ++ stmtUses yes
  | .ifElse cond yes no => (uses cond).value ++ stmtUses yes ++ stmtUses no
  | .forLoop init cond inc body _ _ => stmtUses init ++ valueUses cond ++ stmtUses body ++ valueUses inc
  | .doWhile body cond _ _ => stmtUses body ++ (uses cond).value
  | .switch cond body _ _ _ => (uses cond).value ++ stmtUses body
  | .caseOf _ lhs | .label _ lhs => stmtUses lhs
  | .ret lhs => valueUses lhs
  | .goto _ | .unsupported => []

def stmtsUses : List Stmt → List Use
  | [] => []
  | s :: rest => stmtUses s ++ stmtsUses rest

end

-- mark_refs: every function an expression names, called or not.
mutual

def markRefs : Node → List String
  | .nullExpr | .num _ _ | .memzero _ | .unsupported _ => []
  | .var _ v => if v.isFunction then [v.name] else []
  | .unary _ _ lhs | .member _ _ lhs => markRefs lhs
  | .binary _ _ lhs rhs => markRefs lhs ++ markRefs rhs
  | .cond _ c yes no => markRefs c ++ markRefs yes ++ markRefs no
  | .funcall _ _ lhs args _ => markRefs lhs ++ markArgs args

def markArgs : List Node → List String
  | [] => []
  | a :: rest => markRefs a ++ markArgs rest

end

def markOption : Option Node → List String
  | none => []
  | some n => markRefs n

mutual

def markStmt : Stmt → List String
  | .block body => markStmts body
  | .exprStmt lhs => markRefs lhs
  | .ifThen cond yes => markRefs cond ++ markStmt yes
  | .ifElse cond yes no => markRefs cond ++ markStmt yes ++ markStmt no
  | .forLoop init cond inc body _ _ => markOption cond ++ markStmt body ++ markStmt init ++ markOption inc
  | .doWhile body cond _ _ | .switch cond body _ _ _ => markRefs cond ++ markStmt body
  | .caseOf _ lhs | .label _ lhs => markStmt lhs
  | .ret lhs => markOption lhs
  | .goto _ | .unsupported => []

def markStmts : List Stmt → List String
  | [] => []
  | s :: rest => markStmt s ++ markStmts rest

end

def referenced (prog : Program) : List String :=
  prog.flatMap (fun g => if g.isFunction && g.isDefinition then markStmt g.body else []) ++
    prog.flatMap (fun g => if !g.isFunction && g.isDefinition then g.rel.map (·.label.text) else [])

-- The position the name got last, the functions being numbered from `from_` on.
def lastIndex (name : String) : Nat → List Global → Option Nat
  | _,[] => none
  | i,fn :: rest =>
    match lastIndex name (i + 1) rest with
    | some j => some j
    | none => if fn.name = name then some i else none

def startsWith (start name : String) : Bool := start.toList.isPrefixOf name.toList

def envImports (marked : List String) : Program → Gen (List Global)
  | [] => return []
  | fn :: rest =>
    if fn.isFunction && !fn.isDefinition && marked.contains fn.name && !startsWith "__builtin_" fn.name then
      if startsWith "__env_" fn.name then do return fn :: (← envImports marked rest)
      else .error ("undefined function " ++ fn.name ++ " (env imports must be named __env_*)")
    else envImports marked rest

def definitions (prog : Program) : List Global := prog.filter fun fn => fn.isFunction && fn.isDefinition

-- ---- function signatures ----

def valtype : Option ValueType → U8
  | none => 0
  | some .i32 => 0x7f
  | some .i64 => 0x7e
  | some .f32 => 0x7d
  | some .f64 => 0x7c

-- The classes of the parameters and the result, the hidden ones included.
def paramClasses (returnTy : Ty) (params : List Ty) (isVariadic : Bool) : List (Option ValueType) :=
  (if returnTy.isStruct then [some .i32] else []) ++ params.map (fun t => vclass (some t)) ++
    if isVariadic then [some .i32] else []

def resultBytes : Option ValueType → Bytes
  | none => [0]
  | some rc => [1,valtype (some rc)]

def typeEntry : Ty → Bytes
  | .func returnTy params isVariadic =>
    let ps := paramClasses returnTy params isVariadic
    [0x60] ++ uleb ps.length ++ ps.map valtype ++ resultBytes (resultClass returnTy)
  | _ => []

-- Entries are compared by their bytes and only ever appended.
def addTypeEntry (entries : List Bytes) (e : Bytes) : List Bytes := if e ∈ entries then entries else entries ++ [e]

def indirectTypes (all : List Use) : List Ty :=
  all.filterMap fun
    | .indirect ty => some ty
    | _ => none

-- sig_index is asked for the imports, for the definitions and by call_indirect, in this order.
def sigRequests (imports defs : List Global) : List Ty :=
  imports.map (·.var.ty) ++ defs.map (·.var.ty) ++ defs.flatMap fun fn => indirectTypes (stmtUses fn.body)

def addTypeEntries (entries : List Bytes) (tys : List Ty) : List Bytes :=
  tys.foldl (fun entries ty => addTypeEntry entries (typeEntry ty)) entries

def typeEntries (imports defs : List Global) : List Bytes := addTypeEntries [] (sigRequests imports defs)

-- ---- data ----

-- One storage location a name: the position of its definition in the program, and its address.
structure Placed where
  name : String
  position : Nat
  offset : Nat
  deriving DecidableEq, Repr

structure Options where
  stackSize : Nat
  maxPages : Nat

structure Layout where
  placed : List Placed
  dataEnd : Nat
  stackTop : Nat

def dataBase : Nat := 1024

-- One pass of layout_globals: over the initialised globals, or over the others.
def placeGlobals (initialised : Bool) : Nat → Program → Nat × List Placed → Gen (Nat × List Placed)
  | _,[],s => return s
  | i,var :: rest,(addr,placed) =>
    if var.isFunction || !var.isDefinition || var.initData.isSome != initialised then
      placeGlobals initialised (i + 1) rest (addr,placed)
    else if placed.any (·.name == var.name) then
      if var.initData.isSome then .error ("redefinition of " ++ var.name)
      else placeGlobals initialised (i + 1) rest (addr,placed)
    else
      let offset := alignTo addr (alignment var.align)
      let addr := offset + var.var.ty.size ilp32
      if addr > 0x7fffffff then .error "globals do not fit in 2 GiB"
      else placeGlobals initialised (i + 1) rest (addr,placed ++ [⟨var.name,i,offset⟩])

def layoutGlobals (o : Options) (prog : Program) : Gen Layout := do
  let (dataEnd,placed) ← placeGlobals true 0 prog (dataBase,[])
  let (addr,placed) ← placeGlobals false 0 prog (dataEnd,placed)
  let top := alignTo addr 16 + alignTo o.stackSize 16
  if top + 65535 > o.maxPages * 65536 ∨ top > 0x7fffffff then
    .error ("data (" ++ toString addr ++ " bytes) plus stack (" ++ toString o.stackSize ++ " bytes) do not fit in " ++
      toString o.maxPages ++ " pages")
  else return ⟨placed,dataEnd,top⟩

def Layout.globalDef (l : Layout) (name : String) : Option Placed := l.placed.find? (·.name == name)

-- The writes emit_data makes, in order, by the address they are for.
def relocationWrites (c : Context) (prog : Program) (offset : Nat) : List Relocation → Gen (List (Nat × Bytes))
  | [] => return []
  | rel :: rest =>
    match prog.find? (·.name == rel.label.text) with
    | none => .error ("relocation to unknown symbol " ++ rel.label.text)
    | some target => do
      let addr ← globalAddr c target.var
      let rest ← relocationWrites c prog offset rest
      return (offset + rel.offset,leBytes 4 (BitVec.ofInt 32 (addr + rel.addend)).toNat) :: rest

def dataWrites (c : Context) (l : Layout) (prog : Program) : Nat → Program → Gen (List (Nat × Bytes))
  | _,[] => return []
  | i,var :: rest => do
    let later ← dataWrites c l prog (i + 1) rest
    match var.isFunction || !var.isDefinition,var.initData,l.globalDef var.name with
    | false,some bytes,some place =>
      if place.position ≠ i then return later else
      let relocated ← relocationWrites c prog place.offset var.rel
      return (place.offset,bytes.take (var.var.ty.size ilp32)) :: relocated ++ later
    | _,_,_ => return later

-- A write to the image. What would fall outside it, the end of an address in
-- a variable of less than four bytes, is dropped.
def patch (img : Bytes) (start : Nat) (bytes : Bytes) : Bytes :=
  img.mapIdx fun i b => if start ≤ i then bytes.getD (i - start) b else b

def emitData (c : Context) (l : Layout) (prog : Program) : Gen Bytes := do
  let writes ← dataWrites c l prog 0 prog
  return writes.foldl (fun img w => patch img (w.1 - dataBase) w.2) (List.replicate (l.dataEnd - dataBase) 0)

-- ---- the module ----

-- A vector as it is emitted: a count and, written apart from it, the entries.
structure Vec (α : Type) where
  count : Nat
  entries : List α

structure Import where
  field : String
  typeIndex : Nat

structure Module where
  typeCount : Nat
  typeBytes : Bytes
  imports : Vec Import
  functions : Vec Nat
  tableSize : Nat
  minPages : Nat
  maxPages : Nat
  stackPointer : Nat
  start : Option Nat
  elementOffset : Nat
  elements : Vec Nat
  code : Vec FunctionBody
  dataOffset : Nat
  data : Vec U8

-- The maps of the module; data belongs to no function.
def moduleContext (funcs : List Global) (entries : List Bytes) (l : Layout) : Context where
  nparams := 0
  returnTy := .void
  funcIndex := fun name => lastIndex name 0 funcs
  globalDef := fun name => (l.globalDef name).map Placed.offset
  heapBase := l.stackTop
  sigIndex := fun ty => entries.idxOf (typeEntry ty)

def functionContext (c : Context) (fn : Global) : Context :=
  {c with nparams := fn.params.length + if fn.isVariadic then 1 else 0,returnTy := fn.returnTy}

def genFunctions (c : Context) : List Global → Gen (List FunctionBody)
  | [] => return []
  | fn :: rest => do
    let body ← genFunction (functionContext c fn) fn
    let rest ← genFunctions c rest
    return body :: rest

-- The sections, each count computed apart from the entries it stands before.
def emitModule (o : Options) (imports defs : List Global) (entries : List Bytes) (l : Layout) (bodies : List FunctionBody)
    (data : Bytes) : Module where
  typeCount := entries.length
  typeBytes := entries.flatten
  imports := ⟨imports.length,imports.map fun fn => ⟨String.ofList (fn.name.toList.drop 6),entries.idxOf (typeEntry fn.var.ty)⟩⟩
  functions := ⟨(imports ++ defs).length - imports.length,defs.map fun fn => entries.idxOf (typeEntry fn.var.ty)⟩
  tableSize := (imports ++ defs).length + 1
  minPages := (l.stackTop + 65535) / 65536
  maxPages := o.maxPages
  stackPointer := l.stackTop
  start := lastIndex "_start" 0 (imports ++ defs)
  elementOffset := 1
  elements := ⟨(imports ++ defs).length,List.range (imports ++ defs).length⟩
  code := ⟨(imports ++ defs).length - imports.length,bodies⟩
  dataOffset := dataBase
  data := ⟨l.dataEnd - dataBase,data⟩

-- The capacity of the function list doubles from 64 in an int and cannot pass 2^30.
def codegen (o : Options) (toplevelAsm : String) (parsed : Program) : Gen Module := do
  if toplevelAsm ≠ "" then .error "file-scope asm is not supported by the wasm backend" else
  let prog := parsed.reverse
  let imports ← envImports (referenced prog) prog
  let defs := definitions prog
  let funcs := imports ++ defs
  if funcs.length > 2 ^ 30 then .error "out of memory" else
  if funcs.any fun fn => !fn.var.ty.isFunc then .error "not a function type" else
  let entries := typeEntries imports defs
  let l ← layoutGlobals o prog
  let c := moduleContext funcs entries l
  let bodies ← genFunctions c defs
  let minPages := (l.stackTop + 65535) / 65536
  if minPages > o.maxPages then
    .error ("initial memory (" ++ toString minPages ++ " pages) exceeds -mmaxpages=" ++ toString o.maxPages)
  else
  let data ← emitData c l prog
  return emitModule o imports defs entries l bodies data

end SandboxStack.Cc
