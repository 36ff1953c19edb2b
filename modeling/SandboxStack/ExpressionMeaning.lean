import SandboxStack.GenExpr

namespace SandboxStack.Cc
open Wasm LinearMemory

-- What an expression reads and changes, its function's scratch locals not
-- being part of the language.
structure World where
  sp : U32
  memory : Memory

-- A struct assignment `lhs = rhs` that was evaluated: the object `lhs` denotes,
-- the bytes of the value of `rhs`, and the world in which they are copied.
-- `during` are the objects of the struct assignments begun while `rhs` was
-- evaluated, in this order.
structure Assigned where
  ty : Ty
  lhs : Node
  rhs : Node
  start : World
  target : U32
  value : List U8
  after : World
  during : List U32

def Assigned.node (e : Assigned) : Node := .binary .assign (some e.ty) e.lhs e.rhs

-- No struct assignment was begun while `rhs` was evaluated, or the one begun
-- last is to the same object.
def Undisturbed (e : Assigned) : Prop := ∀ last ∈ e.during.getLast?, last = e.target

def Calm (t : List Assigned) : Prop := ∀ e ∈ t, Undisturbed e

-- An evaluation, with the struct assignments in the order they are begun.
def Comp (α : Type) : Type := World → Except Stop (α × World × List Assigned)

namespace Comp

def stop {α : Type} (e : Stop) : Comp α := fun _ => .error e

def world : Comp World := fun w => .ok (w,w,[])

def moveSp (size : U32) : Comp Unit := fun w => .ok ((),{w with sp := w.sp + size},[])

def bind {α β : Type} (m : Comp α) (f : α → Comp β) : Comp β := fun w =>
  match m w with
  | .error e => .error e
  | .ok (a,w₁,t₁) =>
    match f a w₁ with
    | .error e => .error e
    | .ok (b,w₂,t₂) => .ok (b,w₂,t₁ ++ t₂)

instance : Monad Comp where
  pure a w := .ok (a,w,[])
  bind := bind

-- One value, or none.
def single : List Value → Comp (Option Value)
  | [] => pure none
  | [v] => pure (some v)
  | _ => stop .stuck

def address : Option Value → Comp U32
  | some (.i32 a) => pure a
  | _ => stop .stuck

end Comp

section
variable (M : Machine)

-- What the instructions of an operator, which use no locals, do to its operands.
def operate (code : Gen Code) (operands : List Value) : Comp (List Value) := fun w =>
  match code with
  | .error _ => .error .stuck
  | .ok code =>
    match execAll M code ⟨operands,fun _ => .i32 0,w.sp,w.memory⟩ with
    | .error e => .error e
    | .ok s => .ok (s.stack,⟨s.sp,s.memory⟩,[])

def operator (code : Gen Code) (operands : List Value) : Comp (Option Value) := do
  let results ← operate M code operands
  Comp.single results

-- The value of an operand, converted to a class.
def valueAs (n : Node) (value : Comp (Option Value)) (vc : Option ValueType) : Comp (Option Value) :=
  match n.ty with
  | none => .stop .stuck
  | some ty => do
    let v ← value
    operator M (convert (vclass n.ty) vc (ty.isUnsigned || ty.isPtr)) v.toList

-- 1 or 0.
def tested (n : Node) (value : Comp (Option Value)) : Comp U32 := do
  let v ← value
  let truth ← operator M (.ok (toBool (vclass n.ty))) v.toList
  Comp.address truth

-- A value that is not used; what has no class has none.
def unused (ty : Option Ty) (v : Option Value) : Comp Unit :=
  if (vclass ty).isSome = v.isSome then pure () else .stop .stuck

-- The object at an address: what is of a scalar type is read, of the others
-- the address stands for the value.
def fetchedAt (ty : Option Ty) (a : U32) : Comp (Option Value) :=
  match ty with
  | none => .stop .stuck
  | some ty => operator M (load ty) [.i32 a]

def literalValue (ty : Option Ty) (n : Number) : Value :=
  match vclass ty with
  | some .f32 => .f32 n.single
  | some .f64 => .f64 n.double
  | some .i64 => .i64 (BitVec.ofInt 64 n.val)
  | _ => .i32 (BitVec.ofInt 32 n.val)

def negated (ty : Option Ty) (lhs : Node) (value : Comp (Option Value)) : Comp (Option Value) :=
  match vclass ty with
  | some .f32 => do
    let v ← value
    operator M (.ok (op .f32Neg)) v.toList
  | some .f64 => do
    let v ← value
    operator M (.ok (op .f64Neg)) v.toList
  | some .i64 => do
    let v ← valueAs M lhs value (some .i64)
    operator M (.ok (op (.i64 .sub))) (v.toList ++ [.i64 0])
  | _ => do
    let v ← valueAs M lhs value (some .i32)
    operator M (.ok (op (.i32 .sub))) (v.toList ++ [.i32 0])

def complemented (ty : Option Ty) (lhs : Node) (value : Comp (Option Value)) : Comp (Option Value) :=
  if vclass ty = some .i64 then do
    let v ← valueAs M lhs value (some .i64)
    operator M (.ok (i64c (-1) ++ op (.i64 .xor))) v.toList
  else do
    let v ← valueAs M lhs value (some .i32)
    operator M (.ok (i32c (-1) ++ op (.i32 .xor))) v.toList

def binaryOp (kind : BinaryKind) (lhsTy : Ty) (vc : Option ValueType) : Gen NumericOp :=
  if lhsTy.isFlonum then floatOp kind (vc == some .f64)
  else intOp kind (vc == some .i64) (lhsTy.isUnsigned || lhsTy.isPtr || lhsTy.isArray)

def combined (kind : BinaryKind) (ty : Option Ty) (lhs rhs : Node) (left right : Comp (Option Value)) : Comp (Option Value) :=
  match lhs.ty with
  | none => .stop .stuck
  | some lhsTy => do
    let vc := if kind.isCmp then vclass lhs.ty else vclass ty
    let x ← valueAs M lhs left vc
    let y ← valueAs M rhs right vc
    operator M ((binaryOp kind lhsTy vc).map op) (y.toList ++ x.toList)

-- Sizes of types are ints.
def CopyFits (m : Memory) (size : Nat) (b a : U32) : Prop := size < 2 ^ 32 ∧ b.toNat + size ≤ m.size ∧ a.toNat + size ≤ m.size

instance (m : Memory) (size : Nat) (b a : U32) : Decidable (CopyFits m size b a) :=
  inferInstanceAs (Decidable (size < 2 ^ 32 ∧ b.toNat + size ≤ m.size ∧ a.toNat + size ≤ m.size))

-- The value of `rhs`, an object, is copied to the object `lhs` denotes, which
-- is the value of the assignment.
def assignedStruct (ty : Ty) (lhs rhs : Node) (target : Comp U32) (source : Comp (Option Value)) : Comp (Option Value) := fun w =>
  match target w with
  | .error e => .error e
  | .ok (a,w₁,t₁) =>
    match source w₁ with
    | .error e => .error e
    | .ok (some (.i32 b),w₂,t₂) =>
      let size := ty.size ilp32
      if CopyFits w₂.memory size b a then
        let value := w₂.memory.read b.toNat size
        .ok (some (.i32 a),{w₂ with memory := w₂.memory.write a.toNat value},
          t₁ ++ ⟨ty,lhs,rhs,w,a,value,w₂,t₂.map Assigned.target⟩ :: t₂)
      else .error .outOfBounds
    | .ok _ => .error .stuck

def assigned (ty : Option Ty) (lhs rhs : Node) (target : Comp U32) (source : Comp (Option Value)) : Comp (Option Value) :=
  match ty with
  | none => .stop .stuck
  | some ty =>
    if ty.isStruct then assignedStruct ty lhs rhs target source
    else do
      let a ← target
      let v ← valueAs M rhs source (vclass (some ty))
      match v with
      | none => .stop .stuck
      | some v => do
        let left ← operate M (store ty) [v,.i32 a]
        match left with
        | [] => pure (some v)
        | _ => .stop .stuck

-- ---- calls ----

-- The values of the arguments, the last one first.
def fixedValues : Nat → List (Node × Comp (Option Value)) → Comp (List Value)
  | 0,_ => pure []
  | _+1,[] => .stop .stuck
  | n+1,(_,value) :: rest => do
    let v ← value
    let more ← fixedValues n rest
    return more ++ v.toList

def variadicStore : Option ValueType → Gen Code
  | some .i32 => .ok [.plain (.store .i32Store 2)]
  | some .i64 => .ok [.plain (.store .i64Store 3)]
  | some .f32 => .ok [.plain (.store .f32Store 2)]
  | some .f64 => .ok [.plain (.store .f64Store 3)]
  | none => .error "internal error"

-- The variadic arguments go to slots of 8 bytes above the stack pointer.
def storedValues : Nat → List (Node × Comp (Option Value)) → Comp Unit
  | _,[] => pure ()
  | slot,(a,value) :: rest => do
    let w ← Comp.world
    let v ← value
    let left ← operate M (variadicStore (vclass a.ty)) (v.toList ++ [.i32 (w.sp + BitVec.ofInt 32 (slot * 8))])
    match left with
    | [] => storedValues (slot + 1) rest
    | _ => .stop .stuck

def unusedValues : List (Node × Comp (Option Value)) → Comp Unit
  | [] => pure ()
  | (_,value) :: rest => do
    let v ← value
    match v with
    | none => .stop .stuck
    | some _ => unusedValues rest

-- A callee gets its arguments and leaves its result.
def invoked (c : Context) (funcTy : Ty) (lhs : Node) (pointer : Comp (Option Value)) (operands : List Value) : Comp (List Value) :=
  match callee lhs with
  | some fn => operate M (do return [.plain (.call (← funcIdx c fn))]) operands
  | none => do
    let f ← valueAs M lhs pointer (some .i32)
    operate M (.ok [.plain (.callIndirect (c.sigIndex funcTy))]) (f.toList ++ operands)

-- A struct is returned in a buffer of the caller, whose address comes first.
def called (c : Context) (fp : U32) (ty : Option Ty) (funcTy : Ty) (lhs : Node) (pointer : Comp (Option Value))
    (args : List (Node × Comp (Option Value))) (retBuffer : Option Obj) : Comp (Option Value) :=
  match (callee lhs).map Obj.name with
  | some "__builtin_wasm_memory_size" => do
    unusedValues args
    operator M (do return [.plain .memorySize] ++ (← convert (some .i32) (vclass ty) true)) []
  | some "__builtin_wasm_memory_grow" =>
    match args with
    | (_,first) :: (second,pages) :: _ => do
      let v ← first
      match v with
      | none => .stop .stuck
      | some _ => do
        let n ← valueAs M second pages (some .i32)
        operator M (do return [.plain .memoryGrow] ++ (← convert (some .i32) (vclass ty) true)) n.toList
    | _ => .stop .stuck
  | some "alloca" => .stop .stuck
  | _ =>
    match funcTy with
    | .func _ params isVariadic => do
      let buffer := (retBuffer.map fun v => Value.i32 (fp + BitVec.ofInt 32 v.offset)).toList
      let fixed ← fixedValues params.length args
      if isVariadic then do
        let rest := args.drop params.length
        let size := BitVec.ofInt 32 (alignTo (rest.length * 8) 16)
        Comp.moveSp (-size)
        storedValues M 0 rest
        let w ← Comp.world
        let results ← invoked M c funcTy lhs pointer (.i32 w.sp :: (fixed ++ buffer))
        Comp.moveSp size
        Comp.single (buffer ++ results)
      else do
        let results ← invoked M c funcTy lhs pointer (fixed ++ buffer)
        Comp.single (buffer ++ results)
    | _ => .stop .stuck

-- ---- nodes ----

-- The object a node denotes and its value.
structure Evaluated where
  addr : Comp U32
  value : Comp (Option Value)

def noLvalue : Comp U32 := .stop .stuck

def varAt (c : Context) (fp : U32) (v : Obj) : Comp U32 :=
  if v.isLocal then pure (fp + BitVec.ofInt 32 v.offset)
  else
    match globalAddr c v with
    | .ok a => pure (BitVec.ofInt 32 a)
    | .error _ => .stop .stuck

def Evaluated.denoting (value : Comp (Option Value)) : Evaluated := ⟨do Comp.address (← value),value⟩

mutual

-- The evaluation of an expression in the function that `c` is of, with its
-- frame at `fp`, from left to right.
def evaluate (c : Context) (fp : U32) : Node → Evaluated
  | .nullExpr => ⟨noLvalue,pure none⟩
  | .num ty n => ⟨noLvalue,pure (some (literalValue ty n))⟩
  | .var ty v => ⟨varAt c fp v,do fetchedAt M ty (← varAt c fp v)⟩
  | .memzero v => ⟨noLvalue,
      operator M (.ok (i32c 0 ++ i32c (v.ty.size ilp32) ++ [.plain .memoryFill])) [.i32 (fp + BitVec.ofInt 32 v.offset)]⟩
  | .unary .neg ty lhs => ⟨noLvalue,negated M ty lhs (evaluate c fp lhs).value⟩
  | .unary .not _ lhs => ⟨noLvalue,do
      let b ← tested M lhs (evaluate c fp lhs).value
      operator M (.ok (op .i32Eqz)) [.i32 b]⟩
  | .unary .bitnot ty lhs => ⟨noLvalue,complemented M ty lhs (evaluate c fp lhs).value⟩
  | .unary .addr _ lhs => ⟨noLvalue,do return some (.i32 (← (evaluate c fp lhs).addr))⟩
  | .unary .deref ty lhs =>
    let addr := do Comp.address (← valueAs M lhs (evaluate c fp lhs).value (some .i32))
    ⟨addr,do fetchedAt M ty (← addr)⟩
  | .unary .cast ty lhs => ⟨noLvalue,
      match ty with
      | none => .stop .stuck
      | some ty => do
        let v ← (evaluate c fp lhs).value
        operator M (cast lhs.ty ty) v.toList⟩
  | .binary .logand _ lhs rhs => ⟨noLvalue,do
      let a ← tested M lhs (evaluate c fp lhs).value
      if a ≠ 0 then do
        let b ← tested M rhs (evaluate c fp rhs).value
        return some (.i32 b)
      else return some (.i32 0)⟩
  | .binary .logor _ lhs rhs => ⟨noLvalue,do
      let a ← tested M lhs (evaluate c fp lhs).value
      if a ≠ 0 then return some (.i32 1)
      else do
        let b ← tested M rhs (evaluate c fp rhs).value
        return some (.i32 b)⟩
  | .binary .comma _ lhs rhs =>
    let left := do unused lhs.ty (← (evaluate c fp lhs).value)
    ⟨do left; (evaluate c fp rhs).addr,do left; (evaluate c fp rhs).value⟩
  | .binary .assign ty lhs rhs =>
    .denoting (assigned M ty lhs rhs (evaluate c fp lhs).addr (evaluate c fp rhs).value)
  | .binary kind ty lhs rhs =>
    ⟨noLvalue,combined M kind ty lhs rhs (evaluate c fp lhs).value (evaluate c fp rhs).value⟩
  | .member ty m lhs =>
    let addr := do return (← (evaluate c fp lhs).addr) + BitVec.ofInt 32 m.offset
    ⟨addr,do fetchedAt M ty (← addr)⟩
  | .cond ty test yes no =>
    .denoting do
      let b ← tested M test (evaluate c fp test).value
      if b ≠ 0 then valueAs M yes (evaluate c fp yes).value (vclass ty)
      else valueAs M no (evaluate c fp no).value (vclass ty)
  | .funcall ty funcTy lhs args retBuffer =>
    .denoting (called M c fp ty funcTy lhs (evaluate c fp lhs).value (evaluateArgs c fp args) retBuffer)
  | .unsupported _ => ⟨noLvalue,.stop .stuck⟩

def evaluateArgs (c : Context) (fp : U32) : List Node → List (Node × Comp (Option Value))
  | [] => []
  | a :: rest => (a,(evaluate c fp a).value) :: evaluateArgs c fp rest

end

theorem evaluateArgs_map (c : Context) (fp : U32) (args : List Node) :
    evaluateArgs M c fp args = args.map fun a => (a,(evaluate M c fp a).value) := by
  induction args with
  | nil => rfl
  | cons a rest ih => rw [evaluateArgs,List.map_cons,ih]

end

end SandboxStack.Cc
