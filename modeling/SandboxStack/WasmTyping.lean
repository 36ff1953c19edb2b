import SandboxStack.WasmCode

namespace SandboxStack.Wasm
open LinearMemory LittleEndian

structure FuncType where
  params : List ValueType
  results : List ValueType
  deriving DecidableEq, Repr

-- The locals of a function and the function and type index spaces of its module.
structure Typing where
  locals : Nat → Option ValueType
  funcs : Nat → Option FuncType
  types : Nat → Option FuncType

-- Operand stacks are written from the top; parameters are in the order they are pushed.
def popAll : List ValueType → List ValueType → Option (List ValueType)
  | [],stack => some stack
  | t :: rest,u :: stack => if t = u then popAll rest stack else none
  | _ :: _,[] => none

def FuncType.apply (f : FuncType) (stack : List ValueType) : Option (List ValueType) :=
  (popAll f.params.reverse stack).map (f.results.reverse ++ ·)

def NumericOp.type : NumericOp → FuncType
  | .i32 _ => ⟨[.i32,.i32],[.i32]⟩
  | .i64 _ => ⟨[.i64,.i64],[.i64]⟩
  | .i32Compare _ => ⟨[.i32,.i32],[.i32]⟩
  | .i64Compare _ => ⟨[.i64,.i64],[.i32]⟩
  | .i32Eqz | .i32Extend8S | .i32Extend16S => ⟨[.i32],[.i32]⟩
  | .i32WrapI64 => ⟨[.i64],[.i32]⟩
  | .i64ExtendI32S | .i64ExtendI32U => ⟨[.i32],[.i64]⟩
  | .f32 _ => ⟨[.f32,.f32],[.f32]⟩
  | .f64 _ => ⟨[.f64,.f64],[.f64]⟩
  | .f32Compare _ => ⟨[.f32,.f32],[.i32]⟩
  | .f64Compare _ => ⟨[.f64,.f64],[.i32]⟩
  | .f32Neg => ⟨[.f32],[.f32]⟩
  | .f64Neg => ⟨[.f64],[.f64]⟩
  | .i32TruncF32S | .i32TruncF32U => ⟨[.f32],[.i32]⟩
  | .i32TruncF64S | .i32TruncF64U => ⟨[.f64],[.i32]⟩
  | .i64TruncF32S | .i64TruncF32U => ⟨[.f32],[.i64]⟩
  | .i64TruncF64S | .i64TruncF64U => ⟨[.f64],[.i64]⟩
  | .f32ConvertI32S | .f32ConvertI32U => ⟨[.i32],[.f32]⟩
  | .f32ConvertI64S | .f32ConvertI64U => ⟨[.i64],[.f32]⟩
  | .f64ConvertI32S | .f64ConvertI32U => ⟨[.i32],[.f64]⟩
  | .f64ConvertI64S | .f64ConvertI64U => ⟨[.i64],[.f64]⟩
  | .f32DemoteF64 => ⟨[.f64],[.f32]⟩
  | .f64PromoteF32 => ⟨[.f32],[.f64]⟩

def LoadOp.type : LoadOp → ValueType
  | .i64Load => .i64
  | .f32Load => .f32
  | .f64Load => .f64
  | _ => .i32

def StoreOp.type : StoreOp → ValueType
  | .i64Store => .i64
  | .f32Store => .f32
  | .f64Store => .f64
  | _ => .i32

-- The greatest alignment an access may promise, as a power of two.
def LoadOp.alignment : LoadOp → Nat
  | .i32Load8S | .i32Load8U => 0
  | .i32Load16S | .i32Load16U => 1
  | .i32Load | .f32Load => 2
  | .i64Load | .f64Load => 3

def StoreOp.alignment : StoreOp → Nat
  | .i32Store8 => 0
  | .i32Store16 => 1
  | .i32Store | .f32Store => 2
  | .i64Store | .f64Store => 3

section
variable (G : Typing)

-- Every instruction but `drop` has one type.
def Plain.type : Plain → Option FuncType
  | .i32Const _ => some ⟨[],[.i32]⟩
  | .i64Const _ => some ⟨[],[.i64]⟩
  | .f32Const _ => some ⟨[],[.f32]⟩
  | .f64Const _ => some ⟨[],[.f64]⟩
  | .localGet i => (G.locals i).map fun t => ⟨[],[t]⟩
  | .localSet i => (G.locals i).map fun t => ⟨[t],[]⟩
  | .localTee i => (G.locals i).map fun t => ⟨[t],[t]⟩
  | .globalGet => some ⟨[],[.i32]⟩
  | .globalSet => some ⟨[.i32],[]⟩
  | .drop => none
  | .load o align => if align ≤ o.alignment then some ⟨[.i32],[o.type]⟩ else none
  | .store o align => if align ≤ o.alignment then some ⟨[.i32,o.type],[]⟩ else none
  | .memorySize => some ⟨[],[.i32]⟩
  | .memoryGrow => some ⟨[.i32],[.i32]⟩
  | .memoryCopy | .memoryFill => some ⟨[.i32,.i32,.i32],[]⟩
  | .numeric o => some o.type
  | .call f => G.funcs f
  | .callIndirect t => (G.types t).map fun f => ⟨f.params ++ [.i32],f.results⟩

def Plain.check (p : Plain) (stack : List ValueType) : Option (List ValueType) :=
  match p,stack with
  | .drop,_ :: rest => some rest
  | p,stack => do (← p.type G).apply stack

mutual

def Instr.check : Instr → List ValueType → Option (List ValueType)
  | .plain p,stack => p.check G stack
  | .ifElse t yes no,.i32 :: stack =>
    if checkAll yes [] = some t.toList ∧ checkAll no [] = some t.toList then some (t.toList ++ stack) else none
  | .ifElse _ _ _,_ => none

-- The types on the operand stack after straight-line code, if it is valid.
def checkAll : List Instr → List ValueType → Option (List ValueType)
  | [],stack => some stack
  | i :: rest,stack =>
    match i.check stack with
    | some stack => checkAll rest stack
    | none => none

end

end

section
variable {G : Typing} {code code' rest : Code} {p : Plain} {f : FuncType} {types types' types'' z : List ValueType}
  {t : ValueType}

theorem popAll_frame {expected : List ValueType} (popped : popAll expected types = some types') :
    popAll expected (types ++ z) = some (types' ++ z) := by
  induction expected generalizing types with
  | nil => cases popped; rfl
  | cons t rest ih =>
    cases types with
    | nil => cases popped
    | cons u types =>
      simp only [popAll] at popped
      split at popped
      · rename_i same
        simp only [List.cons_append,popAll,if_pos same]
        exact ih popped
      · cases popped

@[simp] theorem popAll_append {expected : List ValueType} : popAll expected (expected ++ z) = some z := by
  induction expected with
  | nil => rfl
  | cons t rest ih => simpa [popAll] using ih

theorem apply_frame (applied : f.apply types = some types') : f.apply (types ++ z) = some (types' ++ z) := by
  obtain ⟨rest,popped,rfl⟩ := Option.map_eq_some_iff.mp applied
  rw [FuncType.apply,popAll_frame popped]
  simp

theorem plain_frame (checked : p.check G types = some types') : p.check G (types ++ z) = some (types' ++ z) := by
  have general : ∀ p : Plain, (do (← p.type G).apply types) = some types' →
      (do (← p.type G).apply (types ++ z)) = some (types' ++ z) := by
    intro p checked
    obtain ⟨f,known,applied⟩ := Option.bind_eq_some_iff.mp checked
    exact Option.bind_eq_some_iff.mpr ⟨f,known,apply_frame applied⟩
  cases p <;> try exact general _ checked
  cases types with
  | nil => cases checked
  | cons t rest => cases checked; rfl

theorem checkAll_cons {i : Instr} : checkAll G (i :: rest) types =
    match i.check G types with
    | some types => checkAll G rest types
    | none => none := rfl

theorem plain_check : Instr.check G (.plain p) types = p.check G types := rfl

theorem ifElse_check {r : Option ValueType} {yes no : Code} : Instr.check G (.ifElse r yes no) (.i32 :: types) =
    if checkAll G yes [] = some r.toList ∧ checkAll G no [] = some r.toList then some (r.toList ++ types) else none := rfl

theorem checkAll_frame (checked : checkAll G code types = some types') :
    checkAll G code (types ++ z) = some (types' ++ z) := by
  induction code generalizing types with
  | nil => cases checked; rfl
  | cons i rest ih =>
    rw [checkAll_cons] at checked ⊢
    cases first : i.check G types with
    | none => rw [first] at checked; cases checked
    | some middle =>
      rw [first] at checked
      have framed : i.check G (types ++ z) = some (middle ++ z) := by
        cases i with
        | plain p => rw [plain_check] at first ⊢; exact plain_frame first
        | ifElse t yes no =>
          rcases types with _ | ⟨u,types⟩
          · cases first
          cases u <;> try cases first
          rw [List.cons_append,ifElse_check]
          rw [ifElse_check] at first
          split at first
          · rename_i arms
            cases first
            rw [if_pos arms,List.append_assoc]
          · cases first
      rw [framed]
      exact ih checked

theorem checkAll_append {u : List ValueType} (first : checkAll G code types = some u)
    (second : checkAll G code' u = some types') : checkAll G (code ++ code') types = some types' := by
  induction code generalizing types with
  | nil => cases first; exact second
  | cons i rest ih =>
    rw [List.cons_append,checkAll_cons]
    rw [checkAll_cons] at first
    cases one : i.check G types with
    | none => rw [one] at first; cases first
    | some middle =>
      rw [one] at first
      exact ih first

-- Code that leaves one more result, on any stack.
def Pushes (G : Typing) (code : Code) (t : List ValueType) : Prop := checkAll G code [] = some t

theorem Pushes.above (pushes : Pushes G code types) : checkAll G code z = some (types ++ z) :=
  checkAll_frame (z := z) pushes

theorem pushes_append (first : Pushes G code types) (second : checkAll G code' types = some types') :
    Pushes G (code ++ code') types' := checkAll_append first second

theorem check_plain (checked : p.check G types = some types') : checkAll G [.plain p] types = some types' := by
  rw [checkAll_cons,plain_check,checked]
  rfl

theorem check_ifElse {r : Option ValueType} {yes no : Code} {t : List ValueType} (one : Pushes G yes r.toList)
    (two : Pushes G no r.toList) : checkAll G [.ifElse r yes no] (.i32 :: t) = some (r.toList ++ t) := by
  rw [checkAll_cons,ifElse_check,if_pos ⟨one,two⟩]
  rfl

end

end SandboxStack.Wasm
