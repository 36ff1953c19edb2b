import SandboxStack.LinearMemory

namespace SandboxStack.Wasm
open LinearMemory LittleEndian

inductive ValueType where
  | i32 | i64 | f32 | f64
  deriving DecidableEq, Repr

-- Floats are bit patterns; what is computed with them is a parameter.
inductive Value where
  | i32 (v : U32)
  | i64 (v : U64)
  | f32 (bits : U32)
  | f64 (bits : U64)
  deriving DecidableEq, Repr

def Value.type : Value → ValueType
  | .i32 _ => .i32
  | .i64 _ => .i64
  | .f32 _ => .f32
  | .f64 _ => .f64

inductive IntBinary where
  | add | sub | mul | divS | divU | remS | remU | and | or | xor | shl | shrS | shrU
  deriving DecidableEq, Repr

inductive IntCompare where
  | eq | ne | ltS | ltU | leS | leU
  deriving DecidableEq, Repr

inductive FloatBinary where
  | add | sub | mul | div
  deriving DecidableEq, Repr

inductive FloatCompare where
  | eq | ne | lt | le
  deriving DecidableEq, Repr

inductive NumericOp where
  | i32 (o : IntBinary) | i64 (o : IntBinary)
  | i32Compare (o : IntCompare) | i64Compare (o : IntCompare)
  | i32Eqz | i32Extend8S | i32Extend16S
  | i32WrapI64 | i64ExtendI32S | i64ExtendI32U
  | f32 (o : FloatBinary) | f64 (o : FloatBinary)
  | f32Compare (o : FloatCompare) | f64Compare (o : FloatCompare)
  | f32Neg | f64Neg
  | i32TruncF32S | i32TruncF32U | i32TruncF64S | i32TruncF64U
  | i64TruncF32S | i64TruncF32U | i64TruncF64S | i64TruncF64U
  | f32ConvertI32S | f32ConvertI32U | f32ConvertI64S | f32ConvertI64U
  | f64ConvertI32S | f64ConvertI32U | f64ConvertI64S | f64ConvertI64U
  | f32DemoteF64 | f64PromoteF32
  deriving DecidableEq, Repr

inductive LoadOp where
  | i32Load | i64Load | f32Load | f64Load | i32Load8S | i32Load8U | i32Load16S | i32Load16U
  deriving DecidableEq, Repr

inductive StoreOp where
  | i32Store | i64Store | f32Store | f64Store | i32Store8 | i32Store16
  deriving DecidableEq, Repr

-- Instructions without a body. Global 0 is the only global; memory offsets
-- are 0, and the alignment hint has no effect.
inductive Plain where
  | i32Const (v : U32) | i64Const (v : U64) | f32Const (bits : U32) | f64Const (bits : U64)
  | localGet (i : Nat) | localSet (i : Nat) | localTee (i : Nat)
  | globalGet | globalSet
  | drop
  | load (o : LoadOp) (align : Nat) | store (o : StoreOp) (align : Nat)
  | memorySize | memoryGrow | memoryCopy | memoryFill
  | numeric (o : NumericOp)
  | call (f : Nat) | callIndirect (t : Nat)
  deriving DecidableEq, Repr

-- Straight-line code: `if` is the only construct with a body, and no body is left early.
inductive Instr where
  | plain (p : Plain)
  | ifElse (result : Option ValueType) (yes no : List Instr)

abbrev Code := List Instr

inductive Stop where
  | divideByZero | integerOverflow | invalidConversion | outOfBounds | callee
  | stuck
  deriving DecidableEq, Repr

structure State where
  stack : List Value
  locals : Nat → Value
  sp : U32
  memory : Memory

-- Truncation gives no integer for a NaN or an infinity.
structure FloatUnit where
  f32Binary : FloatBinary → U32 → U32 → U32
  f64Binary : FloatBinary → U64 → U64 → U64
  f32Compare : FloatCompare → U32 → U32 → Bool
  f64Compare : FloatCompare → U64 → U64 → Bool
  f32Neg : U32 → U32
  f64Neg : U64 → U64
  f32Trunc : U32 → Option Int
  f64Trunc : U64 → Option Int
  f32OfInt : Int → U32
  f64OfInt : Int → U64
  demote : U64 → U32
  promote : U32 → U64

-- `direct` and `indirect` say what a call of a function index, or through a type
-- index, does to the state; a trap of the callee is a stop.
structure Machine where
  floats : FloatUnit
  direct : Nat → State → Except Stop State
  indirect : Nat → State → Except Stop State

def IntBinary.eval {w : Nat} (o : IntBinary) (a b : BitVec w) : Except Stop (BitVec w) :=
  match o with
  | .add => .ok (a + b)
  | .sub => .ok (a - b)
  | .mul => .ok (a * b)
  | .divS =>
    if b = 0 then .error .divideByZero
    else if a = BitVec.intMin w ∧ b = -1 then .error .integerOverflow else .ok (a.sdiv b)
  | .divU => if b = 0 then .error .divideByZero else .ok (a / b)
  | .remS => if b = 0 then .error .divideByZero else .ok (a.srem b)
  | .remU => if b = 0 then .error .divideByZero else .ok (a % b)
  | .and => .ok (a &&& b)
  | .or => .ok (a ||| b)
  | .xor => .ok (a ^^^ b)
  | .shl => .ok (a <<< (b.toNat % w))
  | .shrS => .ok (a.sshiftRight (b.toNat % w))
  | .shrU => .ok (a >>> (b.toNat % w))

def IntCompare.eval {w : Nat} (o : IntCompare) (a b : BitVec w) : Bool :=
  match o with
  | .eq => a == b
  | .ne => a != b
  | .ltS => a.slt b
  | .ltU => a.ult b
  | .leS => a.sle b
  | .leU => a.ule b

def boolean (b : Bool) : Value := .i32 (if b then 1 else 0)

-- A truncated float that has to fit the target type.
def truncated (w : Nat) (unsigned : Bool) (t : Option Int) : Except Stop (BitVec w) :=
  match t with
  | none => .error .invalidConversion
  | some z =>
    if unsigned then if 0 ≤ z ∧ z < 2 ^ w then .ok (BitVec.ofInt w z) else .error .integerOverflow
    else if -(2 ^ (w - 1)) ≤ z ∧ z < 2 ^ (w - 1) then .ok (BitVec.ofInt w z) else .error .integerOverflow

section
variable (F : FloatUnit)

def NumericOp.eval : NumericOp → List Value → Except Stop (List Value)
  | .i32 o,.i32 b :: .i32 a :: s => do return .i32 (← o.eval a b) :: s
  | .i64 o,.i64 b :: .i64 a :: s => do return .i64 (← o.eval a b) :: s
  | .i32Compare o,.i32 b :: .i32 a :: s => .ok (boolean (o.eval a b) :: s)
  | .i64Compare o,.i64 b :: .i64 a :: s => .ok (boolean (o.eval a b) :: s)
  | .i32Eqz,.i32 a :: s => .ok (boolean (a == 0) :: s)
  | .i32Extend8S,.i32 a :: s => .ok (.i32 ((a.setWidth 8).signExtend 32) :: s)
  | .i32Extend16S,.i32 a :: s => .ok (.i32 ((a.setWidth 16).signExtend 32) :: s)
  | .i32WrapI64,.i64 a :: s => .ok (.i32 (a.setWidth 32) :: s)
  | .i64ExtendI32S,.i32 a :: s => .ok (.i64 (a.signExtend 64) :: s)
  | .i64ExtendI32U,.i32 a :: s => .ok (.i64 (a.setWidth 64) :: s)
  | .f32 o,.f32 b :: .f32 a :: s => .ok (.f32 (F.f32Binary o a b) :: s)
  | .f64 o,.f64 b :: .f64 a :: s => .ok (.f64 (F.f64Binary o a b) :: s)
  | .f32Compare o,.f32 b :: .f32 a :: s => .ok (boolean (F.f32Compare o a b) :: s)
  | .f64Compare o,.f64 b :: .f64 a :: s => .ok (boolean (F.f64Compare o a b) :: s)
  | .f32Neg,.f32 a :: s => .ok (.f32 (F.f32Neg a) :: s)
  | .f64Neg,.f64 a :: s => .ok (.f64 (F.f64Neg a) :: s)
  | .i32TruncF32S,.f32 a :: s => do return .i32 (← truncated 32 false (F.f32Trunc a)) :: s
  | .i32TruncF32U,.f32 a :: s => do return .i32 (← truncated 32 true (F.f32Trunc a)) :: s
  | .i32TruncF64S,.f64 a :: s => do return .i32 (← truncated 32 false (F.f64Trunc a)) :: s
  | .i32TruncF64U,.f64 a :: s => do return .i32 (← truncated 32 true (F.f64Trunc a)) :: s
  | .i64TruncF32S,.f32 a :: s => do return .i64 (← truncated 64 false (F.f32Trunc a)) :: s
  | .i64TruncF32U,.f32 a :: s => do return .i64 (← truncated 64 true (F.f32Trunc a)) :: s
  | .i64TruncF64S,.f64 a :: s => do return .i64 (← truncated 64 false (F.f64Trunc a)) :: s
  | .i64TruncF64U,.f64 a :: s => do return .i64 (← truncated 64 true (F.f64Trunc a)) :: s
  | .f32ConvertI32S,.i32 a :: s => .ok (.f32 (F.f32OfInt a.toInt) :: s)
  | .f32ConvertI32U,.i32 a :: s => .ok (.f32 (F.f32OfInt a.toNat) :: s)
  | .f32ConvertI64S,.i64 a :: s => .ok (.f32 (F.f32OfInt a.toInt) :: s)
  | .f32ConvertI64U,.i64 a :: s => .ok (.f32 (F.f32OfInt a.toNat) :: s)
  | .f64ConvertI32S,.i32 a :: s => .ok (.f64 (F.f64OfInt a.toInt) :: s)
  | .f64ConvertI32U,.i32 a :: s => .ok (.f64 (F.f64OfInt a.toNat) :: s)
  | .f64ConvertI64S,.i64 a :: s => .ok (.f64 (F.f64OfInt a.toInt) :: s)
  | .f64ConvertI64U,.i64 a :: s => .ok (.f64 (F.f64OfInt a.toNat) :: s)
  | .f32DemoteF64,.f64 a :: s => .ok (.f32 (F.demote a) :: s)
  | .f64PromoteF32,.f32 a :: s => .ok (.f64 (F.promote a) :: s)
  | _,_ => .error .stuck

end

def State.push (v : Value) (s : State) : State := {s with stack := v :: s.stack}

def fetched (s : State) (v : Option Value) : Except Stop State :=
  match v with
  | some v => .ok (s.push v)
  | none => .error .outOfBounds

def LoadOp.value (o : LoadOp) (m : Memory) (a : Nat) : Option Value :=
  match o with
  | .i32Load => do let v : U32 ← m.load 4 a; return .i32 v
  | .i64Load => do let v : U64 ← m.load 8 a; return .i64 v
  | .f32Load => do let v : U32 ← m.load 4 a; return .f32 v
  | .f64Load => do let v : U64 ← m.load 8 a; return .f64 v
  | .i32Load8S => do let v : U8 ← m.load 1 a; return .i32 (v.signExtend 32)
  | .i32Load8U => do let v : U8 ← m.load 1 a; return .i32 (v.setWidth 32)
  | .i32Load16S => do let v : U16 ← m.load 2 a; return .i32 (v.signExtend 32)
  | .i32Load16U => do let v : U16 ← m.load 2 a; return .i32 (v.setWidth 32)

-- The inner `none` is a value of the wrong type.
def StoreOp.result (o : StoreOp) (m : Memory) (a : Nat) (v : Value) : Option (Option Memory) :=
  match o,v with
  | .i32Store,.i32 v => some (m.store 4 a v)
  | .i64Store,.i64 v => some (m.store 8 a v)
  | .f32Store,.f32 v => some (m.store 4 a v)
  | .f64Store,.f64 v => some (m.store 8 a v)
  | .i32Store8,.i32 v => some (m.store 1 a (v.setWidth 8))
  | .i32Store16,.i32 v => some (m.store 2 a (v.setWidth 16))
  | _,_ => none

def stored (s : State) (rest : List Value) (m : Option (Option Memory)) : Except Stop State :=
  match m with
  | some (some memory) => .ok {s with stack := rest,memory}
  | some none => .error .outOfBounds
  | none => .error .stuck

def grown (s : State) (rest : List Value) (m : Option Memory) : State :=
  match m with
  | some memory => {s with stack := .i32 (BitVec.ofNat 32 s.memory.pages) :: rest,memory}
  | none => {s with stack := .i32 (-1) :: rest}

def copied (s : State) (rest : List Value) (d src n : Nat) : Except Stop State :=
  if src + n ≤ s.memory.size ∧ d + n ≤ s.memory.size then
    .ok {s with stack := rest,memory := s.memory.write d (s.memory.read src n)}
  else .error .outOfBounds

def filled (s : State) (rest : List Value) (d : Nat) (b : U8) (n : Nat) : Except Stop State :=
  if d + n ≤ s.memory.size then .ok {s with stack := rest,memory := s.memory.write d (List.replicate n b)}
  else .error .outOfBounds

def Plain.exec (M : Machine) (p : Plain) (s : State) : Except Stop State :=
  match p with
  | .i32Const v => .ok (s.push (.i32 v))
  | .i64Const v => .ok (s.push (.i64 v))
  | .f32Const v => .ok (s.push (.f32 v))
  | .f64Const v => .ok (s.push (.f64 v))
  | .localGet i => .ok (s.push (s.locals i))
  | .localSet i =>
    match s.stack with
    | v :: rest => .ok {s with stack := rest,locals := Function.update s.locals i v}
    | _ => .error .stuck
  | .localTee i =>
    match s.stack with
    | v :: _ => .ok {s with locals := Function.update s.locals i v}
    | _ => .error .stuck
  | .globalGet => .ok (s.push (.i32 s.sp))
  | .globalSet =>
    match s.stack with
    | .i32 v :: rest => .ok {s with stack := rest,sp := v}
    | _ => .error .stuck
  | .drop =>
    match s.stack with
    | _ :: rest => .ok {s with stack := rest}
    | _ => .error .stuck
  | .load o _ =>
    match s.stack with
    | .i32 a :: rest => fetched {s with stack := rest} (o.value s.memory a.toNat)
    | _ => .error .stuck
  | .store o _ =>
    match s.stack with
    | v :: .i32 a :: rest => stored s rest (o.result s.memory a.toNat v)
    | _ => .error .stuck
  | .memorySize => .ok (s.push (.i32 (BitVec.ofNat 32 s.memory.pages)))
  | .memoryGrow =>
    match s.stack with
    | .i32 n :: rest => .ok (grown s rest (s.memory.grow n.toNat))
    | _ => .error .stuck
  | .memoryCopy =>
    match s.stack with
    | .i32 n :: .i32 src :: .i32 d :: rest => copied s rest d.toNat src.toNat n.toNat
    | _ => .error .stuck
  | .memoryFill =>
    match s.stack with
    | .i32 n :: .i32 b :: .i32 d :: rest => filled s rest d.toNat (b.setWidth 8) n.toNat
    | _ => .error .stuck
  | .numeric o =>
    match o.eval M.floats s.stack with
    | .ok stack => .ok {s with stack}
    | .error e => .error e
  | .call f => M.direct f s
  | .callIndirect t => M.indirect t s

mutual

def Instr.exec (M : Machine) : Instr → State → Except Stop State
  | .plain p,s => p.exec M s
  | .ifElse _ yes no,s =>
    match s.stack with
    | .i32 c :: rest => if c ≠ 0 then execAll M yes {s with stack := rest} else execAll M no {s with stack := rest}
    | _ => .error .stuck

def execAll (M : Machine) : List Instr → State → Except Stop State
  | [],s => .ok s
  | i :: rest,s =>
    match i.exec M s with
    | .ok s' => execAll M rest s'
    | .error e => .error e

end

section
variable {M : Machine} {s s' : State} {code rest : Code} {p : Plain}

@[simp] theorem execAll_nil : execAll M [] s = .ok s := rfl

theorem execAll_cons {i : Instr} : execAll M (i :: rest) s = i.exec M s >>= execAll M rest := by
  rw [execAll]
  cases i.exec M s <;> rfl

theorem execAll_append : execAll M (code ++ rest) s = execAll M code s >>= execAll M rest := by
  induction code generalizing s with
  | nil => rfl
  | cons i tail ih =>
    rw [List.cons_append,execAll_cons,execAll_cons]
    cases i.exec M s with
    | error e => rfl
    | ok middle => exact ih

theorem append_done {s'' : State} (first : execAll M code s = .ok s') (second : execAll M rest s' = .ok s'') :
    execAll M (code ++ rest) s = .ok s'' := by
  rw [execAll_append,first]
  exact second

theorem append_ok (first : execAll M code s = .ok s') : execAll M (code ++ rest) s = execAll M rest s' := by
  rw [execAll_append,first]
  rfl

theorem append_stopped {e : Stop} (first : execAll M code s = .error e) : execAll M (code ++ rest) s = .error e := by
  rw [execAll_append,first]
  rfl

@[simp] theorem plain_cons : execAll M (.plain p :: rest) s = p.exec M s >>= execAll M rest := execAll_cons

theorem ifElse_taken {c : U32} {below : List Value} {t : Option ValueType} {yes no : Code}
    (top : s.stack = .i32 c :: below) (nonzero : c ≠ 0) :
    execAll M [.ifElse t yes no] s = execAll M yes {s with stack := below} := by
  rw [execAll_cons,Instr.exec,top]
  dsimp only
  rw [if_pos nonzero]
  cases execAll M yes {s with stack := below} <;> rfl

theorem ifElse_skipped {below : List Value} {t : Option ValueType} {yes no : Code}
    (top : s.stack = .i32 0 :: below) :
    execAll M [.ifElse t yes no] s = execAll M no {s with stack := below} := by
  rw [execAll_cons,Instr.exec,top]
  dsimp only
  rw [if_neg (fun different => different rfl)]
  cases execAll M no {s with stack := below} <;> rfl

end

-- Function bodies as they are emitted: straight-line code between control
-- instructions whose block types are empty. `close` is `end`.
inductive Flow where
  | code (c : Code)
  | block
  | loop
  | ifThen
  | elseThen
  | close
  | br (n : Nat)
  | brIf (n : Nat)

abbrev Body := List Flow

end SandboxStack.Wasm
