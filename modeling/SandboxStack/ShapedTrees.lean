import SandboxStack.TypedTrees

namespace SandboxStack.Cc
open Wasm

-- The arguments of a call as the parser converts them: to the parameter's type, a struct excepted.
def ArgsShaped : List Ty → List Node → Prop
  | p :: params,a :: args => (p.isStruct = true ∨ a.ty = some p) ∧ ArgsShaped params args
  | _,_ => True

mutual

-- What the parser and add_type guarantee of an expression of any type.
def Shaped : Node → Prop
  | .num ty _ => vclass ty ≠ none
  | .var ty v => ty = some v.ty
  | .unary kind ty lhs => Shaped lhs ∧
      match kind with
      | .neg => lhs.ty = ty ∧ vclass ty ≠ none
      | .not => ty = some (.int false)
      | .bitnot => ty = lhs.ty
      | .addr => vclass ty = some .i32
      | .deref => ∃ base, ty = some base ∧ base.isVoid = false
      | .cast => ∃ target, ty = some target
  | .binary kind ty lhs rhs => Shaped lhs ∧ Shaped rhs ∧
      match kind.rule with
      | .arithmetic => vclass ty ≠ none ∧
          (kind = .sub ∧ vclass ty = some .i32 ∧ (lhs.ty.map Ty.isFlonum).getD false = false ∨ lhs.ty = ty ∧ rhs.ty = ty)
      | .comparison => lhs.ty = rhs.ty ∧ vclass lhs.ty ≠ none ∧ ty = some (.int false)
      | .logical => ty = some (.int false)
      | .shift => ty = lhs.ty
      | .comma => ty = rhs.ty
      | .assign => ty = lhs.ty ∧ (ty.map Ty.isArray).getD false = false ∧ (rhs.ty = ty ∨ (ty.map Ty.isStruct).getD false)
  | .member ty m lhs => Shaped lhs ∧ ty = some m.ty
  | .cond ty test yes no => Shaped test ∧ Shaped yes ∧ Shaped no ∧
      (yes.ty = ty ∧ no.ty = ty ∨ ty = some .void)
  | .funcall ty funcTy lhs args retBuffer => Shaped lhs ∧ ShapedArgs args ∧
      ∃ returnTy params isVariadic, funcTy = .func returnTy params isVariadic ∧ ty = some returnTy ∧
        retBuffer.isSome = returnTy.isStruct ∧ ArgsShaped params args
  | _ => True

def ShapedArgs : List Node → Prop
  | [] => True
  | a :: rest => Shaped a ∧ ShapedArgs rest

end

theorem newCast_shaped {e : Node} {ty : Ty} (shaped : Shaped e) : Shaped (e.newCast ty) :=
  ⟨shaped,ty,rfl⟩

-- A tree as the parser hands it to add_type: a node that has a type already
-- was given its operands' types with it.
def Built : Node → Prop
  | .num none _ | .var none _ => True
  | .unary kind none lhs => kind ≠ .cast ∧ Built lhs
  | .binary _ none lhs rhs => Built lhs ∧ Built rhs
  | .member none _ lhs => Built lhs
  | .cond none test yes no => Built test ∧ Built yes ∧ Built no
  | .funcall none _ _ _ _ => False
  | n => Shaped n

section
variable {ty ty₁ ty₂ : Ty}

theorem class_none : vclass (some ty) = none ↔ ty.isVoid = true := by
  cases ty
  case void => exact iff_of_true rfl rfl
  all_goals exact iff_of_false (Option.some_ne_none _) Bool.false_ne_true

theorem class_float (float : ty.isFlonum = true) : vclass (some ty) = some .f32 ∨ vclass (some ty) = some .f64 := by
  cases ty <;> first | exact .inl rfl | exact .inr rfl | cases float

theorem class_integer (notFloat : ty.isFlonum = false) (notVoid : vclass (some ty) ≠ none) :
    vclass (some ty) = some .i32 ∨ vclass (some ty) = some .i64 := by
  cases ty <;> first | exact .inl rfl | exact .inr rfl | exact (notVoid rfl).elim | cases notFloat

theorem promoted_class : vclass (some (promoted ilp32 ty)) ≠ none := by
  unfold promoted
  split
  · decide
  · rename_i large
    rw [ne_eq,class_none]
    cases ty <;> simp [Ty.isVoid,Ty.size] at large ⊢

theorem widened_class {larger shorter unsigned : Prop} [Decidable larger] [Decidable shorter] [Decidable unsigned] :
    vclass (some (if larger then if shorter then promoted ilp32 ty₂ else promoted ilp32 ty₁
      else if unsigned then promoted ilp32 ty₂ else promoted ilp32 ty₁)) ≠ none := by
  by_cases larger <;> by_cases shorter <;> by_cases unsigned <;> simp_all only [if_true,if_false] <;> exact promoted_class

theorem common_class : vclass (some (getCommonType ilp32 ty₁ ty₂)) ≠ none := by
  unfold getCommonType
  split
  · exact Option.some_ne_none _
  · split
    · exact Option.some_ne_none _
    · split
      · exact Option.some_ne_none _
      · split
        all_goals first | exact widened_class | exact Option.some_ne_none _

end

section
variable {n n' lhs rhs test yes no : Node}

theorem unaryType_shaped {kind : UnaryKind} (operand : Shaped lhs) (cast : kind ≠ .cast)
    (made : unaryType ilp32 kind lhs = .ok n') : Shaped n' := by
  cases kind with
  | neg =>
    obtain ⟨ty,_,rest⟩ := bind_ok made
    cases rest
    exact ⟨newCast_shaped operand,rfl,common_class⟩
  | not => cases made; exact ⟨operand,rfl⟩
  | bitnot => cases made; exact ⟨operand,rfl⟩
  | addr =>
    obtain ⟨ty,_,rest⟩ := bind_ok made
    split at rest <;> (cases rest; exact ⟨operand,rfl⟩)
  | deref =>
    obtain ⟨ty,_,rest⟩ := bind_ok made
    split at rest
    · cases rest
    · cases rest
    · rename_i base notVoid _
      cases rest
      exact ⟨operand,base,rfl,by cases base <;> simp_all [Ty.isVoid]⟩
  | cast => exact absurd rfl cast

theorem binaryType_shaped {kind : BinaryKind} (left : Shaped lhs) (right : Shaped rhs)
    (made : binaryType ilp32 kind lhs rhs = .ok n') : Shaped n' := by
  unfold binaryType at made
  cases rule : kind.rule with
  | arithmetic =>
    rw [rule] at made
    obtain ⟨t1,_,rest⟩ := bind_ok made
    obtain ⟨t2,_,rest⟩ := bind_ok rest
    cases rest
    refine ⟨newCast_shaped left,newCast_shaped right,?_⟩
    rw [rule]
    exact ⟨common_class,.inr ⟨rfl,rfl⟩⟩
  | comparison =>
    rw [rule] at made
    obtain ⟨t1,_,rest⟩ := bind_ok made
    obtain ⟨t2,_,rest⟩ := bind_ok rest
    cases rest
    refine ⟨newCast_shaped left,newCast_shaped right,?_⟩
    rw [rule]
    exact ⟨rfl,common_class,rfl⟩
  | assign =>
    rw [rule] at made
    obtain ⟨ty,known,rest⟩ := bind_ok made
    have type := typed_ty known
    split at rest
    · cases rest
    · cases rest
      refine ⟨left,right,?_⟩
      rw [rule]
      exact ⟨type.symm,rfl,.inr rfl⟩
    · rename_i notArray _
      cases rest
      refine ⟨left,newCast_shaped right,?_⟩
      rw [rule]
      refine ⟨type.symm,?_,.inl rfl⟩
      cases ty <;> first | rfl | exact (notArray _ _ rfl).elim
  | _ =>
    rw [rule] at made
    cases made
    refine ⟨left,right,?_⟩
    rw [rule]

theorem condType_shaped (one : Shaped test) (two : Shaped yes) (three : Shaped no)
    (made : condType ilp32 test yes no = .ok n') : Shaped n' := by
  obtain ⟨t1,_,rest⟩ := bind_ok made
  obtain ⟨t2,_,rest⟩ := bind_ok rest
  split at rest
  · cases rest
    exact ⟨one,two,three,.inr rfl⟩
  · cases rest
    exact ⟨one,newCast_shaped two,newCast_shaped three,.inl ⟨rfl,rfl⟩⟩

theorem addType_shaped (built : Built n) (made : addType ilp32 n = .ok n') : Shaped n' := by
  induction n generalizing n' with
  | nullExpr => cases made; exact built
  | num ty number =>
    cases ty with
    | none => cases made; show vclass (some (.int false)) ≠ none; decide
    | some ty => cases made; exact built
  | var ty v =>
    cases ty with
    | none => cases made; rfl
    | some ty => cases made; exact built
  | memzero v => cases made; exact built
  | unary kind ty lhs ih =>
    cases ty with
    | none =>
      obtain ⟨typed,first,rest⟩ := bind_ok made
      exact unaryType_shaped (ih built.2 first) built.1 rest
    | some ty => cases made; exact built
  | binary kind ty lhs rhs ihl ihr =>
    cases ty with
    | none =>
      obtain ⟨left,first,rest⟩ := bind_ok made
      obtain ⟨right,second,rest⟩ := bind_ok rest
      exact binaryType_shaped (ihl built.1 first) (ihr built.2 second) rest
    | some ty => cases made; exact built
  | member ty m lhs ih =>
    cases ty with
    | none =>
      obtain ⟨typed,first,rest⟩ := bind_ok made
      cases rest
      exact ⟨ih built first,rfl⟩
    | some ty => cases made; exact built
  | cond ty test yes no ihc ihy ihn =>
    cases ty with
    | none =>
      obtain ⟨condition,first,rest⟩ := bind_ok made
      obtain ⟨one,second,rest⟩ := bind_ok rest
      obtain ⟨two,third,rest⟩ := bind_ok rest
      exact condType_shaped (ihc built.1 first) (ihy built.2.1 second) (ihn built.2.2 third) rest
    | some ty => cases made; exact built
  | funcall ty funcTy lhs args retBuffer ih ihs =>
    cases ty with
    | none => exact built.elim
    | some ty => cases made; exact built
  | unsupported ty => cases made; exact built

end

end SandboxStack.Cc
