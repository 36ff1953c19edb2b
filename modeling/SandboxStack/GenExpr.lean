import SandboxStack.CNodes

namespace SandboxStack.Cc
open Wasm

-- What code generation for one function reads: the numbering of its locals,
-- the maps of the module, and the type entries in their final order.
structure Context where
  nparams : Nat
  returnTy : Ty
  funcIndex : String → Option Nat
  globalDef : String → Option Nat
  heapBase : Nat
  sigIndex : Ty → Nat

namespace Context

def fp (c : Context) : Nat := c.nparams
def t32 (c : Context) : Nat := c.nparams + 1
def t32b (c : Context) : Nat := c.nparams + 2
def t64 (c : Context) : Nat := c.nparams + 3
def tf32 (c : Context) : Nat := c.nparams + 4
def tf64 (c : Context) : Nat := c.nparams + 5
def rv (c : Context) : Nat := c.nparams + 6

end Context

abbrev Gen := Except String

def i32c (v : Int) : Code := [.plain (.i32Const (BitVec.ofInt 32 v))]
def i64c (v : Int) : Code := [.plain (.i64Const (BitVec.ofInt 64 v))]
def op (o : NumericOp) : Code := [.plain (.numeric o)]
def localGet (i : Nat) : Code := [.plain (.localGet i)]
def localSet (i : Nat) : Code := [.plain (.localSet i)]
def localTee (i : Nat) : Code := [.plain (.localTee i)]
def drop : Code := [.plain .drop]

def isInt4 (ty : Option ValueType) : Bool := ty == some .i32

def funcIdx (c : Context) (fn : Obj) : Gen Nat :=
  match c.funcIndex fn.name with
  | some i => .ok i
  | none => .error "function is neither defined nor an env import"

-- A function is its table index.
def globalAddr (c : Context) (v : Obj) : Gen Nat := do
  if v.isFunction then return (← funcIdx c v) + 1 else
  match c.globalDef v.name with
  | some offset => return offset
  | none => if v.name = "__heap_base" then return c.heapBase else .error "undefined global"

def sized (one two four eight : Plain) (size : Nat) : Gen Code :=
  match size with
  | 1 => .ok [.plain one]
  | 2 => .ok [.plain two]
  | 4 => .ok [.plain four]
  | 8 => .ok [.plain eight]
  | _ => .error "internal error"

def load (ty : Ty) : Gen Code :=
  match ty with
  | .array _ _ | .struct _ _ _ | .union _ _ _ | .func _ _ _ | .vla _ => .ok []
  | .float => .ok [.plain (.load .f32Load 2)]
  | .double | .ldouble => .ok [.plain (.load .f64Load 3)]
  | _ => sized (.load (if ty.isUnsigned || ty.isBool then .i32Load8U else .i32Load8S) 0)
    (.load (if ty.isUnsigned then .i32Load16U else .i32Load16S) 1) (.load .i32Load 2) (.load .i64Load 3) (ty.size ilp32)

def store (ty : Ty) : Gen Code :=
  match ty with
  | .float => .ok [.plain (.store .f32Store 2)]
  | .double | .ldouble => .ok [.plain (.store .f64Store 3)]
  | _ => sized (.store .i32Store8 0) (.store .i32Store16 1) (.store .i32Store 2) (.store .i64Store 3) (ty.size ilp32)

def toBool : Option ValueType → Code
  | some .i32 => i32c 0 ++ op (.i32Compare .ne)
  | some .i64 => i64c 0 ++ op (.i64Compare .ne)
  | some .f32 => [.plain (.f32Const 0)] ++ op (.f32Compare .ne)
  | some .f64 => [.plain (.f64Const 0)] ++ op (.f64Compare .ne)
  | none => []

-- value of class `source` on the stack -> class `target`
def convert (source target : Option ValueType) (fromUnsigned : Bool) : Gen Code :=
  if source = target then .ok [] else
  match source,target with
  | some .i32,some .i64 => .ok (op (if fromUnsigned then .i64ExtendI32U else .i64ExtendI32S))
  | some .i32,some .f32 => .ok (op (if fromUnsigned then .f32ConvertI32U else .f32ConvertI32S))
  | some .i32,some .f64 => .ok (op (if fromUnsigned then .f64ConvertI32U else .f64ConvertI32S))
  | some .i64,some .i32 => .ok (op .i32WrapI64)
  | some .i64,some .f32 => .ok (op (if fromUnsigned then .f32ConvertI64U else .f32ConvertI64S))
  | some .i64,some .f64 => .ok (op (if fromUnsigned then .f64ConvertI64U else .f64ConvertI64S))
  | some .f32,some .f64 => .ok (op .f64PromoteF32)
  | some .f32,some .i32 => .ok (op (if fromUnsigned then .i32TruncF32U else .i32TruncF32S))
  | some .f32,some .i64 => .ok (op (if fromUnsigned then .i64TruncF32U else .i64TruncF32S))
  | some .f64,some .f32 => .ok (op .f32DemoteF64)
  | some .f64,some .i32 => .ok (op (if fromUnsigned then .i32TruncF64U else .i32TruncF64S))
  | some .f64,some .i64 => .ok (op (if fromUnsigned then .i64TruncF64U else .i64TruncF64S))
  | _,_ => .error "internal error"

-- narrow an i32 to the representation of a small integer type
def narrow (target : Ty) : Code :=
  if target.isBool then [] else
  match target.size ilp32 with
  | 1 => if target.isUnsigned then i32c 0xff ++ op (.i32 .and) else op .i32Extend8S
  | 2 => if target.isUnsigned then i32c 0xffff ++ op (.i32 .and) else op .i32Extend16S
  | _ => []

def isFloatClass (vc : Option ValueType) : Bool := vc == some .f32 || vc == some .f64
def isIntClass (vc : Option ValueType) : Bool := vc == some .i32 || vc == some .i64

def cast (source : Option Ty) (target : Ty) : Gen Code :=
  let fc := vclass source
  let tc := vclass (some target)
  if target.isVoid then .ok (if fc ≠ none then drop else [])
  else if target.isBool then .ok (toBool fc)
  else
    match source with
    | none => .error "expression without a type"
    | some source => do
      -- when converting a float to a small integer, go through i32 with the target's signedness
      let fromUnsigned := if isFloatClass fc && isIntClass tc then target.isUnsigned
        else source.isUnsigned || source.isPtr || source.isArray
      let converted ← convert fc tc fromUnsigned
      if tc = some .i32 ∧ target.isInteger ∧ target.size ilp32 < 4 ∧
          (source.size ilp32 > target.size ilp32 ∨ fc ≠ some .i32 ∨ source.isUnsigned ≠ target.isUnsigned) then
        return converted ++ narrow target
      else return converted

-- gen_expr_as and gen_cond, given the code of the expression.
def genExprAs (n : Node) (code : Gen Code) (vc : Option ValueType) : Gen Code := do
  let ty ← n.typed
  let code ← code
  let converted ← convert (vclass n.ty) vc (ty.isUnsigned || ty.isPtr)
  return code ++ converted

def genCond (n : Node) (code : Gen Code) : Gen Code := do
  let code ← code
  return code ++ toBool (vclass n.ty)

-- push_ctl: the control stack has 512 entries, `depth` of them in use.
def pushCtl (depth : Nat) : Gen Unit := if depth = 512 then .error "control nesting too deep" else .ok ()

def fpPlus (c : Context) (off : Int) : Code :=
  localGet c.fp ++ if off ≠ 0 then i32c off ++ op (.i32 .add) else []

def scratchLocal (c : Context) : Option ValueType → Gen Nat
  | some .i32 => .ok c.t32
  | some .i64 => .ok c.t64
  | some .f32 => .ok c.tf32
  | some .f64 => .ok c.tf64
  | none => .error "internal error"

def alignTo (n align : Nat) : Nat := (n + align - 1) / align * align

-- The slots of the variadic arguments, from slot number `slot` on.
def genVariadic : Nat → List (Node × Gen Code) → Gen Code
  | _,[] => return []
  | slot,(a,code) :: rest => do
    if (← a.typed).isStruct then .error "passing a struct as a variadic argument is not supported" else
    let code ← code
    let stored ← match vclass a.ty with
      | some .i32 => pure [Instr.plain (.store .i32Store 2)]
      | some .i64 => pure [Instr.plain (.store .i64Store 3)]
      | some .f32 => pure [Instr.plain (.store .f32Store 2)]
      | some .f64 => pure [Instr.plain (.store .f64Store 3)]
      | none => .error "internal error"
    let rest ← genVariadic (slot + 1) rest
    return [.plain .globalGet] ++ (if slot ≠ 0 then i32c (slot * 8) ++ op (.i32 .add) else []) ++ code ++ stored ++ rest

def genFixed : Nat → List (Node × Gen Code) → Gen Code
  | 0,_ => return []
  | _+1,[] => .error "missing argument"
  | n+1,(_,code) :: rest => do
    let code ← code
    let rest ← genFixed n rest
    return code ++ rest

def genDropped : List (Node × Gen Code) → Gen Code
  | [] => return []
  | (_,code) :: rest => do
    let code ← code
    let rest ← genDropped rest
    return code ++ drop ++ rest

def moveSp (o : IntBinary) (size : Nat) : Code :=
  if size ≠ 0 then [.plain .globalGet] ++ i32c size ++ op (.i32 o) ++ [.plain .globalSet] else []

def callee (lhs : Node) : Option Obj :=
  match lhs with
  | .var _ v => if v.isFunction then some v else none
  | _ => none

def genTarget (c : Context) (funcTy : Ty) (lhs : Node) (lhsCode : Gen Code) : Gen Code :=
  match callee lhs with
  | some fn => do return [.plain (.call (← funcIdx c fn))]
  | none => do
    let code ← genExprAs lhs lhsCode (some .i32)
    return code ++ [.plain (.callIndirect (c.sigIndex funcTy))]

def retBufferCode (c : Context) : Option Obj → Code
  | some v => fpPlus c v.offset
  | none => []

def genFuncall (c : Context) (ty : Option Ty) (funcTy : Ty) (lhs : Node) (lhsCode : Gen Code)
    (args : List (Node × Gen Code)) (retBuffer : Option Obj) : Gen Code :=
  match (callee lhs).map Obj.name with
  | some "__builtin_wasm_memory_size" => do
    let dropped ← genDropped args
    let converted ← convert (some .i32) (vclass ty) true
    return dropped ++ [.plain .memorySize] ++ converted
  | some "__builtin_wasm_memory_grow" =>
    match args with
    | (_,first) :: (second,secondCode) :: _ => do
      let first ← first
      let pages ← genExprAs second secondCode (some .i32)
      let converted ← convert (some .i32) (vclass ty) true
      return first ++ drop ++ pages ++ [.plain .memoryGrow] ++ converted
    | _ => .error "missing argument"
  | some "alloca" => .error "alloca is not supported"
  | _ =>
    match funcTy with
    | .func _ params isVariadic => do
      let fixed ← genFixed params.length args
      let rest := args.drop params.length
      if isVariadic then
        let size := alignTo (rest.length * 8) 16
        let stored ← genVariadic 0 rest
        let target ← genTarget c funcTy lhs lhsCode
        return retBufferCode c retBuffer ++ fixed ++ moveSp .sub size ++ stored ++ [.plain .globalGet] ++ target ++
          moveSp .add size ++ retBufferCode c retBuffer
      else if rest ≠ [] then .error "too many arguments"
      else
        let target ← genTarget c funcTy lhs lhsCode
        return retBufferCode c retBuffer ++ fixed ++ target ++ retBufferCode c retBuffer
    | _ => .error "not a function type"

def floatOp (kind : BinaryKind) (d : Bool) : Gen NumericOp :=
  match kind with
  | .add => .ok (if d then .f64 .add else .f32 .add)
  | .sub => .ok (if d then .f64 .sub else .f32 .sub)
  | .mul => .ok (if d then .f64 .mul else .f32 .mul)
  | .div => .ok (if d then .f64 .div else .f32 .div)
  | .eq => .ok (if d then .f64Compare .eq else .f32Compare .eq)
  | .ne => .ok (if d then .f64Compare .ne else .f32Compare .ne)
  | .lt => .ok (if d then .f64Compare .lt else .f32Compare .lt)
  | .le => .ok (if d then .f64Compare .le else .f32Compare .le)
  | _ => .error "invalid float operation"

def intOp (kind : BinaryKind) (w u : Bool) : Gen NumericOp :=
  match kind with
  | .add => .ok (if w then .i64 .add else .i32 .add)
  | .sub => .ok (if w then .i64 .sub else .i32 .sub)
  | .mul => .ok (if w then .i64 .mul else .i32 .mul)
  | .div => .ok (if w then (if u then .i64 .divU else .i64 .divS) else (if u then .i32 .divU else .i32 .divS))
  | .mod => .ok (if w then (if u then .i64 .remU else .i64 .remS) else (if u then .i32 .remU else .i32 .remS))
  | .bitand => .ok (if w then .i64 .and else .i32 .and)
  | .bitor => .ok (if w then .i64 .or else .i32 .or)
  | .bitxor => .ok (if w then .i64 .xor else .i32 .xor)
  | .shl => .ok (if w then .i64 .shl else .i32 .shl)
  | .shr => .ok (if w then (if u then .i64 .shrU else .i64 .shrS) else (if u then .i32 .shrU else .i32 .shrS))
  | .eq => .ok (if w then .i64Compare .eq else .i32Compare .eq)
  | .ne => .ok (if w then .i64Compare .ne else .i32Compare .ne)
  | .lt => .ok (if w then (if u then .i64Compare .ltU else .i64Compare .ltS)
      else (if u then .i32Compare .ltU else .i32Compare .ltS))
  | .le => .ok (if w then (if u then .i64Compare .leU else .i64Compare .leS)
      else (if u then .i32Compare .leU else .i32Compare .leS))
  | _ => .error "internal error"

def BinaryKind.isCmp (kind : BinaryKind) : Bool :=
  match kind with
  | .eq | .ne | .lt | .le => true
  | _ => false

def genBinary (kind : BinaryKind) (ty : Option Ty) (lhs rhs : Node) (lhsCode rhsCode : Gen Code) : Gen Code := do
  let lhsTy ← lhs.typed
  let fl := lhsTy.isFlonum
  let u := lhsTy.isUnsigned || lhsTy.isPtr || lhsTy.isArray
  let vc := if kind.isCmp then vclass lhs.ty else vclass ty
  let left ← genExprAs lhs lhsCode vc
  let right ← genExprAs rhs rhsCode vc
  let o ← if fl then floatOp kind (vc == some .f64) else intOp kind (vc == some .i64) u
  return left ++ right ++ op o

-- The code of a node as a value and as an address. gen_expr and gen_addr call
-- each other on one node, so both come out of one recursion.
structure Generated where
  addr : Gen Code
  value : Gen Code

def notLvalue : Gen Code := .error "not an lvalue"

def loaded (ty : Option Ty) (addr : Gen Code) : Gen Code := do
  let addr ← addr
  match ty with
  | none => .error "expression without a type"
  | some ty => return addr ++ (← load ty)

def droppedValue (n : Node) (code : Code) : Code := if vclass n.ty ≠ none then code ++ drop else code

def genVarAddr (c : Context) (v : Obj) : Gen Code :=
  if v.ty.isVla then .error "VLA is not supported"
  else if v.isLocal then .ok (fpPlus c v.offset)
  else if v.isTls then .error "TLS is not supported"
  else do return i32c (← globalAddr c v)

def genMemberAddr (m : Member) (lhs : Gen Code) : Gen Code := do
  let lhs ← lhs
  return lhs ++ if m.offset ≠ 0 then i32c m.offset ++ op (.i32 .add) else []

def genNum (ty : Option Ty) (n : Number) : Code :=
  match vclass ty with
  | some .f32 => [.plain (.f32Const n.single)]
  | some .f64 => [.plain (.f64Const n.double)]
  | some .i64 => i64c n.val
  | _ => i32c n.val

def genNeg (ty : Option Ty) (lhs : Node) (code : Gen Code) : Gen Code :=
  match vclass ty with
  | some .f32 => do return (← code) ++ op .f32Neg
  | some .f64 => do return (← code) ++ op .f64Neg
  | some .i64 => do return i64c 0 ++ (← genExprAs lhs code (some .i64)) ++ op (.i64 .sub)
  | _ => do return i32c 0 ++ (← genExprAs lhs code (some .i32)) ++ op (.i32 .sub)

def genBitnot (ty : Option Ty) (lhs : Node) (code : Gen Code) : Gen Code :=
  if vclass ty = some .i64 then do return (← genExprAs lhs code (some .i64)) ++ i64c (-1) ++ op (.i64 .xor)
  else do return (← genExprAs lhs code (some .i32)) ++ i32c (-1) ++ op (.i32 .xor)

def isBitfieldMember : Node → Bool
  | .member _ m _ => m.isBitfield
  | _ => false

def genAssign (c : Context) (ty : Option Ty) (lhs rhs : Node) (lhsAddr rhsCode : Gen Code) : Gen Code :=
  if isBitfieldMember lhs then .error "bitfields are not supported" else
  match ty with
  | none => .error "expression without a type"
  | some ty => do
    if ty.isStruct then
      return (← lhsAddr) ++ localTee c.t32b ++ (← rhsCode) ++ i32c (ty.size ilp32) ++ [.plain .memoryCopy] ++ localGet c.t32b
    else
      let vc := vclass (some ty)
      let addr ← lhsAddr
      let value ← genExprAs rhs rhsCode vc
      let scratch ← scratchLocal c vc
      return addr ++ value ++ localTee scratch ++ (← store ty) ++ localGet scratch

def genConditional (ty : Option Ty) (depth : Nat) (c yes no : Node) (cCode yesCode noCode : Gen Code) : Gen Code := do
  let test ← genCond c cCode
  pushCtl depth
  let yes ← genExprAs yes yesCode (vclass ty)
  let no ← genExprAs no noCode (vclass ty)
  return test ++ [.ifElse (vclass ty) yes no]

mutual

def generate (c : Context) (depth : Nat) : Node → Generated
  | .nullExpr => ⟨notLvalue,return []⟩
  | .num ty n => ⟨notLvalue,return genNum ty n⟩
  | .var ty v => ⟨genVarAddr c v,loaded ty (genVarAddr c v)⟩
  | .memzero v => ⟨notLvalue,
      return fpPlus c v.offset ++ i32c 0 ++ i32c (v.ty.size ilp32) ++ [.plain .memoryFill]⟩
  | .unary .neg ty lhs => ⟨notLvalue,genNeg ty lhs (generate c depth lhs).value⟩
  | .unary .not _ lhs => ⟨notLvalue,do return (← genCond lhs (generate c depth lhs).value) ++ op .i32Eqz⟩
  | .unary .bitnot ty lhs => ⟨notLvalue,genBitnot ty lhs (generate c depth lhs).value⟩
  | .unary .addr _ lhs => ⟨notLvalue,(generate c depth lhs).addr⟩
  | .unary .deref ty lhs =>
    let addr := genExprAs lhs (generate c depth lhs).value (some .i32)
    ⟨addr,loaded ty addr⟩
  | .unary .cast ty lhs => ⟨notLvalue,
      match ty with
      | none => .error "expression without a type"
      | some ty => do return (← (generate c depth lhs).value) ++ (← cast lhs.ty ty)⟩
  | .binary .logand _ lhs rhs => ⟨notLvalue,do
      let left ← genCond lhs (generate c depth lhs).value
      pushCtl depth
      let right ← genCond rhs (generate c (depth + 1) rhs).value
      return left ++ [.ifElse (some .i32) right (i32c 0)]⟩
  | .binary .logor _ lhs rhs => ⟨notLvalue,do
      let left ← genCond lhs (generate c depth lhs).value
      pushCtl depth
      let right ← genCond rhs (generate c (depth + 1) rhs).value
      return left ++ [.ifElse (some .i32) (i32c 1) right]⟩
  | .binary .comma _ lhs rhs =>
    let left := generate c depth lhs
    let right := generate c depth rhs
    ⟨do return droppedValue lhs (← left.value) ++ (← right.addr),
     do return droppedValue lhs (← left.value) ++ (← right.value)⟩
  | .binary .assign ty lhs rhs =>
    let value := genAssign c ty lhs rhs (generate c depth lhs).addr (generate c depth rhs).value
    ⟨if (ty.map Ty.isStruct).getD false then value else notLvalue,value⟩
  | .binary kind ty lhs rhs =>
    ⟨notLvalue,genBinary kind ty lhs rhs (generate c depth lhs).value (generate c depth rhs).value⟩
  | .member ty m lhs =>
    let addr := genMemberAddr m (generate c depth lhs).addr
    ⟨addr,if m.isBitfield then .error "bitfields are not supported" else loaded ty addr⟩
  | .cond ty test yes no =>
    let value := genConditional ty depth test yes no (generate c depth test).value
      (generate c (depth + 1) yes).value (generate c (depth + 1) no).value
    ⟨if (ty.map Ty.isStruct).getD false then value else notLvalue,value⟩
  | .funcall ty funcTy lhs args retBuffer =>
    let value := genFuncall c ty funcTy lhs (generate c depth lhs).value (generateArgs c depth args) retBuffer
    ⟨if retBuffer.isSome then value else notLvalue,value⟩
  | .unsupported _ => ⟨notLvalue,.error "unsupported expression"⟩

def generateArgs (c : Context) (depth : Nat) : List Node → List (Node × Gen Code)
  | [] => []
  | a :: rest => (a,(generate c depth a).value) :: generateArgs c depth rest

end

theorem generateArgs_map (c : Context) (depth : Nat) (args : List Node) :
    generateArgs c depth args = args.map fun a => (a,(generate c depth a).value) := by
  induction args with
  | nil => rfl
  | cons a rest ih => rw [generateArgs,List.map_cons,ih]

def genExpr (c : Context) (depth : Nat) (n : Node) : Gen Code := (generate c depth n).value
def genAddr (c : Context) (depth : Nat) (n : Node) : Gen Code := (generate c depth n).addr

end SandboxStack.Cc
