import SandboxStack.CSemantics

namespace SandboxStack.Cc

-- Peeling a computation that may be refused.
theorem bind_ok {ε α β : Type} {x : Except ε α} {f : α → Except ε β} {b : β} (ran : (x >>= f) = .ok b) :
    ∃ a, x = .ok a ∧ f a = .ok b := by
  cases x with
  | error e => cases ran
  | ok a => exact ⟨a,rfl,ran⟩

theorem typed_ty {n : Node} {ty : Ty} (known : n.typed = .ok ty) : n.ty = some ty := by
  unfold Node.typed at known
  cases found : n.ty with
  | none => rw [found] at known; cases known
  | some t => rw [found] at known; cases known; rfl

section
variable {T : Target} {n n' lhs rhs c yes no : Node}

theorem unaryType_typed {kind : UnaryKind} (operand : Typed lhs) (made : unaryType T kind lhs = .ok n') : Typed n' := by
  cases kind with
  | neg =>
    obtain ⟨ty,_,rest⟩ := bind_ok made
    cases rest
    exact ⟨⟨operand,trivial⟩,rfl⟩
  | not => cases made; exact ⟨operand,rfl⟩
  | bitnot => cases made; exact ⟨operand,rfl⟩
  | addr =>
    obtain ⟨ty,_,rest⟩ := bind_ok made
    split at rest <;> (cases rest; exact ⟨operand,trivial⟩)
  | deref =>
    obtain ⟨ty,_,rest⟩ := bind_ok made
    split at rest
    · cases rest
    · cases rest
    · cases rest; exact ⟨operand,trivial⟩
  | cast => cases made; exact ⟨operand,trivial⟩

theorem newCast_typed {e : Node} {ty : Ty} (typed : Typed e) : Typed (e.newCast ty) := ⟨typed,trivial⟩

theorem binaryType_typed {kind : BinaryKind} (left : Typed lhs) (right : Typed rhs)
    (made : binaryType T kind lhs rhs = .ok n') : Typed n' := by
  unfold binaryType at made
  cases rule : kind.rule with
  | arithmetic =>
    rw [rule] at made
    obtain ⟨t1,_,rest⟩ := bind_ok made
    obtain ⟨t2,_,rest⟩ := bind_ok rest
    cases rest
    refine ⟨newCast_typed left,newCast_typed right,?_⟩
    rw [rule]
    exact .inr ⟨rfl,rfl⟩
  | comparison =>
    rw [rule] at made
    obtain ⟨t1,_,rest⟩ := bind_ok made
    obtain ⟨t2,_,rest⟩ := bind_ok rest
    cases rest
    refine ⟨newCast_typed left,newCast_typed right,?_⟩
    rw [rule]
    exact ⟨rfl,rfl⟩
  | logical =>
    rw [rule] at made
    cases made
    refine ⟨left,right,?_⟩
    rw [rule]
  | shift =>
    rw [rule] at made
    cases made
    refine ⟨left,right,?_⟩
    rw [rule]
  | comma =>
    rw [rule] at made
    cases made
    refine ⟨left,right,?_⟩
    rw [rule]
  | assign =>
    rw [rule] at made
    obtain ⟨ty,known,rest⟩ := bind_ok made
    have type := typed_ty known
    split at rest
    · cases rest
    · cases rest
      refine ⟨left,right,?_⟩
      rw [rule]
      exact ⟨type.symm,.inr rfl⟩
    · cases rest
      refine ⟨left,newCast_typed right,?_⟩
      rw [rule]
      exact ⟨type.symm,.inl rfl⟩

theorem condType_typed (one : Typed c) (two : Typed yes) (three : Typed no) (made : condType T c yes no = .ok n') :
    Typed n' := by
  obtain ⟨t1,_,rest⟩ := bind_ok made
  obtain ⟨t2,_,rest⟩ := bind_ok rest
  split at rest
  · cases rest
    exact ⟨one,two,three,.inr rfl⟩
  · cases rest
    exact ⟨one,newCast_typed two,newCast_typed three,.inl ⟨rfl,rfl⟩⟩

theorem addType_typed (parsed : Parsed n) (made : addType T n = .ok n') : Typed n' := by
  induction n generalizing n' with
  | nullExpr => cases made; trivial
  | num ty n => cases ty <;> (cases made; trivial)
  | var ty v =>
    cases ty with
    | none => cases made; rfl
    | some ty => cases made; exact parsed
  | memzero v => cases made; trivial
  | unary kind ty lhs ih =>
    cases ty with
    | none =>
      obtain ⟨typed,first,rest⟩ := bind_ok made
      exact unaryType_typed (ih parsed.2 first) rest
    | some ty => cases made; exact parsed
  | binary kind ty lhs rhs ihl ihr =>
    cases ty with
    | none =>
      obtain ⟨left,first,rest⟩ := bind_ok made
      obtain ⟨right,second,rest⟩ := bind_ok rest
      exact binaryType_typed (ihl parsed.1 first) (ihr parsed.2 second) rest
    | some ty => cases made; exact parsed
  | member ty m lhs ih =>
    cases ty with
    | none =>
      obtain ⟨typed,first,rest⟩ := bind_ok made
      cases rest
      trivial
    | some ty => cases made; trivial
  | cond ty c yes no ihc ihy ihn =>
    cases ty with
    | none =>
      obtain ⟨test,first,rest⟩ := bind_ok made
      obtain ⟨one,second,rest⟩ := bind_ok rest
      obtain ⟨two,third,rest⟩ := bind_ok rest
      exact condType_typed (ihc parsed.1 first) (ihy parsed.2.1 second) (ihn parsed.2.2 third) rest
    | some ty => cases made; exact parsed
  | funcall ty funcTy lhs args retBuffer ih ihs =>
    cases ty with
    | none =>
      cases funcTy with
      | func returnTy params isVariadic =>
        obtain ⟨typed,first,rest⟩ := bind_ok made
        obtain ⟨more,second,rest⟩ := bind_ok rest
        cases rest
        trivial
      | _ => cases made; trivial
    | some ty => cases made; trivial
  | unsupported ty => cases made; trivial

end

end SandboxStack.Cc
