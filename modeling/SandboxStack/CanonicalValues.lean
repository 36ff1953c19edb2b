import SandboxStack.IntegerConversions
import SandboxStack.OperandArity
import SandboxStack.SmallIntegers
import SandboxStack.ValidExpressions

namespace SandboxStack.Cc
open Wasm LinearMemory

-- The word on top of the stack is canonical.
def Top (t : IntType) (s : State) : Prop := ∃ v rest,s.stack = .i32 v :: rest ∧ Canonical t v

-- The condition under which cast() narrows to a small integer type.
def narrows (source target : Ty) : Bool :=
  source.size ilp32 > target.size ilp32 || vclass (some source) != some .i32 || source.isUnsigned != target.isUnsigned

-- Values of small types that are values of every type they are not narrowed to.
def carried : Ty → Ty → Bool
  | .bool,.char false => false
  | source,_ => source.smallType.isSome

-- What the parser and add_type guarantee of a value of small type: a literal is in range,
-- and what is converted to a common type, or is an address, has no such type.
def Ranked : Node → Prop
  | .num ty n => ∀ t,smallTypeOf ty = some t → Canonical t (BitVec.ofInt 32 n.val)
  | .unary kind ty lhs =>
    match kind with
    | .neg | .addr => smallTypeOf ty = none
    | .bitnot | .cast => Ranked lhs
    | _ => True
  | .binary kind ty lhs rhs =>
    match kind.rule with
    | .arithmetic => smallTypeOf ty = none
    | .shift => Ranked lhs
    | .comma | .assign => Ranked rhs
    | _ => True
  | .cond _ _ yes no => Ranked yes ∧ Ranked no
  | _ => True

section
variable {ty ty₁ ty₂ source : Ty} {t : IntType}

theorem small_class (small : ty.smallType = some t) : vclass (some ty) = some .i32 := by
  cases ty <;> cases small <;> rfl

theorem small_scalar (small : ty.smallType = some t) :
    ty.isStruct = false ∧ ty.isVoid = false ∧ ty.isFlonum = false ∧ ty.isPtr = false ∧ ty.isArray = false := by
  cases ty <;> cases small <;> exact ⟨rfl,rfl,rfl,rfl,rfl⟩

theorem promoted_large : (promoted ilp32 ty).smallType = none := by
  unfold promoted
  split
  · rfl
  · rename_i large
    cases ty <;> first | rfl | exact (large (by simp [Ty.size])).elim

theorem common_large : (getCommonType ilp32 ty₁ ty₂).smallType = none := by
  unfold getCommonType
  split
  · rfl
  split
  · rfl
  split
  · rfl
  split
  · rfl
  · rfl
  · rfl
  · rfl
  · rfl
  · rfl
  · dsimp only
    split
    · split <;> exact promoted_large
    · split <;> exact promoted_large

theorem carried_small (fits : carried source ty = true) : source.smallType.isSome = true := by
  unfold carried at fits
  split at fits
  · cases fits
  · exact fits

-- A value that is not narrowed is one of the target type, those of _Bool as a signed char excepted.
theorem carried_canonical {ts : IntType} {v : U32} (origin : source.smallType = some ts) (small : ty.smallType = some t)
    (ordinary : ty.isBool = false) (kept : narrows source ty = false) (fits : carried source ty = true)
    (canonical : Canonical ts v) : Canonical t v := by
  have widened : Canonical ⟨8,true⟩ v → Canonical ⟨16,true⟩ v := by
    rw [canonical_unsigned (by decide) rfl,canonical_unsigned (by decide) rfl]
    exact fun low => lt_trans low (by decide)
  have extended : Canonical ⟨8,false⟩ v → Canonical ⟨16,false⟩ v := by
    rw [canonical_signed (by decide) (by decide) rfl,canonical_signed (by decide) (by decide) rfl]
    rintro ⟨low,high⟩
    exact ⟨le_trans (by decide) low,lt_trans high (by decide)⟩
  have boolean : Canonical ⟨8,true⟩ v → Canonical ⟨16,false⟩ v := by
    rw [canonical_unsigned (by decide) rfl,canonical_signed (by decide) (by decide) rfl]
    intro low
    have value := BitVec.toInt_eq_toNat_cond v
    dsimp only at low ⊢
    split at value <;> omega
  cases ty with
  | bool => cases ordinary
  | char u =>
    cases small
    cases source with
    | bool => cases u <;> first | cases kept; done | cases fits
    | char w => cases origin; cases u <;> cases w <;> first | exact canonical | cases kept
    | short w => cases kept
    | _ => cases origin
  | short u =>
    cases small
    cases source with
    | bool => cases origin; cases u <;> first | exact boolean canonical | cases kept
    | char w => cases origin; cases u <;> cases w <;> first | exact widened canonical | exact extended canonical | cases kept
    | short w => cases origin; cases u <;> cases w <;> first | exact canonical | cases kept
    | _ => cases origin
  | _ => cases small

end

section
variable {n n' lhs rhs test yes no : Node}

theorem unaryType_ranked {kind : UnaryKind} (operand : kind = .bitnot ∨ kind = .cast → Ranked lhs)
    (made : unaryType ilp32 kind lhs = .ok n') : Ranked n' := by
  cases kind with
  | neg =>
    obtain ⟨ty,_,rest⟩ := bind_ok made
    cases rest
    exact common_large
  | addr =>
    obtain ⟨ty,_,rest⟩ := bind_ok made
    split at rest <;> (cases rest; rfl)
  | deref =>
    obtain ⟨ty,_,rest⟩ := bind_ok made
    split at rest <;> cases rest
    trivial
  | not => cases made; trivial
  | bitnot => cases made; exact operand (.inl rfl)
  | cast => cases made; exact operand (.inr rfl)

theorem binaryType_ranked {kind : BinaryKind} (left : kind.rule = .shift → Ranked lhs)
    (right : kind.rule = .comma ∨ kind.rule = .assign → Ranked rhs) (made : binaryType ilp32 kind lhs rhs = .ok n') : Ranked n' := by
  unfold binaryType at made
  cases rule : kind.rule with
  | arithmetic =>
    rw [rule] at made
    obtain ⟨t1,_,rest⟩ := bind_ok made
    obtain ⟨t2,_,rest⟩ := bind_ok rest
    cases rest
    unfold Ranked
    rw [rule]
    exact common_large
  | comparison =>
    rw [rule] at made
    obtain ⟨t1,_,rest⟩ := bind_ok made
    obtain ⟨t2,_,rest⟩ := bind_ok rest
    cases rest
    unfold Ranked
    rw [rule]
    trivial
  | logical =>
    rw [rule] at made
    cases made
    unfold Ranked
    rw [rule]
    trivial
  | shift =>
    rw [rule] at made
    cases made
    unfold Ranked
    rw [rule]
    exact left rule
  | comma =>
    rw [rule] at made
    cases made
    unfold Ranked
    rw [rule]
    exact right (.inl rule)
  | assign =>
    rw [rule] at made
    obtain ⟨ty,_,rest⟩ := bind_ok made
    split at rest
    · cases rest
    all_goals
      cases rest
      unfold Ranked
      rw [rule]
      exact right (.inr rule)

theorem condType_ranked (two : Ranked yes) (three : Ranked no) (made : condType ilp32 test yes no = .ok n') : Ranked n' := by
  obtain ⟨t1,_,rest⟩ := bind_ok made
  obtain ⟨t2,_,rest⟩ := bind_ok rest
  split at rest <;> (cases rest; exact ⟨two,three⟩)

theorem addType_ranked (ranked : Ranked n) (made : addType ilp32 n = .ok n') : Ranked n' := by
  induction n generalizing n' with
  | nullExpr | memzero v | unsupported ty => cases made; trivial
  | num ty number =>
    cases ty with
    | none => cases made; intro t small; cases small
    | some ty => cases made; exact ranked
  | var ty v => cases ty <;> (cases made; trivial)
  | unary kind ty lhs ih =>
    cases ty with
    | none =>
      obtain ⟨typed,first,rest⟩ := bind_ok made
      refine unaryType_ranked (fun carries => ih ?_ first) rest
      rcases carries with rfl | rfl <;> exact ranked
    | some ty => cases made; exact ranked
  | binary kind ty lhs rhs ihl ihr =>
    cases ty with
    | none =>
      obtain ⟨left,first,rest⟩ := bind_ok made
      obtain ⟨right,second,rest⟩ := bind_ok rest
      unfold Ranked at ranked
      refine binaryType_ranked (fun rule => ihl ?_ first) (fun rule => ihr ?_ second) rest
      · rw [rule] at ranked
        exact ranked
      · rcases rule with rule | rule
        all_goals
          rw [rule] at ranked
          exact ranked
    | some ty => cases made; exact ranked
  | member ty m lhs ih =>
    cases ty with
    | none =>
      obtain ⟨typed,first,rest⟩ := bind_ok made
      cases rest
      trivial
    | some ty => cases made; trivial
  | cond ty test yes no ihc ihy ihn =>
    cases ty with
    | none =>
      obtain ⟨condition,first,rest⟩ := bind_ok made
      obtain ⟨one,second,rest⟩ := bind_ok rest
      obtain ⟨two,third,rest⟩ := bind_ok rest
      exact condType_ranked (ihy ranked.1 second) (ihn ranked.2 third) rest
    | some ty => cases made; exact ranked
  | funcall ty funcTy lhs args retBuffer ih ihs =>
    cases ty with
    | none =>
      cases funcTy with
      | func returnTy params isVariadic =>
        obtain ⟨typed,first,rest⟩ := bind_ok made
        obtain ⟨more,second,rest⟩ := bind_ok rest
        cases rest
        trivial
      | _ => cases made; trivial
    | some ty => cases made; trivial

end

section
variable {M : Machine} {c : Context} {G : Typing} {ty source : Ty} {t : IntType} {s s' : State} {code first : Code} {gen : Gen Code}
  {v : U32} {rest : List Value}

theorem numeric_parts {o : NumericOp} (ran : execAll M (op o) s = .ok s') :
    ∃ stack,o.eval M.floats s.stack = .ok stack ∧ s' = {s with stack} := by
  obtain ⟨middle,one,ended⟩ := execAll_parts ran
  cases ended
  rw [Instr.exec,Plain.exec] at one
  split at one
  · rename_i stack evaluated
    cases one
    exact ⟨stack,evaluated,rfl⟩
  · cases one

theorem loaded_value {o : LoadOp} {align : Nat} (ran : execAll M [.plain (.load o align)] s = .ok s') :
    ∃ a rest v,o.value s.memory a = some v ∧ s'.stack = v :: rest := by
  obtain ⟨middle,one,ended⟩ := execAll_parts ran
  cases ended
  rw [Instr.exec,Plain.exec] at one
  split at one
  · unfold fetched at one
    split at one <;> cases one
    exact ⟨_,_,_,‹_›,rfl⟩
  · cases one

theorem load_top (small : ty.smallType = some t) (made : load ty = .ok code) (ran : execAll M code s = .ok s') : Top t s' := by
  have extended : ∀ (u : Bool) (n : Nat) (x : BitVec n), n ≤ 32 → Canonical ⟨n,u⟩ (if u then x.setWidth 32 else x.signExtend 32) :=
    fun u n x narrow => canonical_extended (t := ⟨n,u⟩) narrow x
  cases ty with
  | bool =>
    cases small
    cases made
    obtain ⟨a,rest,v,found,top⟩ := loaded_value ran
    obtain ⟨x,_,same⟩ := Option.bind_eq_some_iff.mp found
    cases same
    exact ⟨_,rest,top,extended true 8 x (by decide)⟩
  | char u =>
    cases small
    cases u
    all_goals
      cases made
      obtain ⟨a,rest,v,found,top⟩ := loaded_value ran
      obtain ⟨x,_,same⟩ := Option.bind_eq_some_iff.mp found
      cases same
    · exact ⟨_,rest,top,extended false 8 x (by decide)⟩
    · exact ⟨_,rest,top,extended true 8 x (by decide)⟩
  | short u =>
    cases small
    cases u
    all_goals
      cases made
      obtain ⟨a,rest,v,found,top⟩ := loaded_value ran
      obtain ⟨x,_,same⟩ := Option.bind_eq_some_iff.mp found
      cases same
    · exact ⟨_,rest,top,extended false 16 x (by decide)⟩
    · exact ⟨_,rest,top,extended true 16 x (by decide)⟩
  | _ => cases small

theorem word_parts {o : IntBinary} {F : FloatUnit} {stack stack' : List Value}
    (evaluated : (NumericOp.i32 o).eval F stack = .ok stack') :
    ∃ a b r rest,stack = .i32 b :: .i32 a :: rest ∧ o.eval a b = .ok r ∧ stack' = .i32 r :: rest := by
  rcases stack with _ | ⟨b,_ | ⟨a,rest⟩⟩
  · cases evaluated
  · cases b <;> cases evaluated
  cases b <;> cases a <;> try cases evaluated
  obtain ⟨r,combined,same⟩ := bind_ok evaluated
  cases same
  exact ⟨_,_,r,_,rfl,combined,rfl⟩

theorem masked_top {mask : U32} {n : Nat} (narrow : n < 32) (ones : mask.toNat = 2 ^ n - 1)
    (ran : execAll M ([.plain (.i32Const mask)] ++ op (.i32 .and)) s = .ok s') : Top ⟨n,true⟩ s' := by
  obtain ⟨middle,first,second⟩ := append_parts ran
  cases first
  obtain ⟨stack,evaluated,rfl⟩ := numeric_parts second
  obtain ⟨a,b,r,rest,same,combined,rfl⟩ := word_parts evaluated
  obtain ⟨top,_⟩ := List.cons.inj same
  cases top
  cases combined
  refine ⟨_,rest,rfl,?_⟩
  rw [masked_low n a mask narrow ones]
  exact canonical_extended (t := ⟨n,true⟩) (Nat.le_of_lt narrow) (a.setWidth n)

theorem extended_top {o : NumericOp} {n : Nat} (sized : n = 8 ∧ o = .i32Extend8S ∨ n = 16 ∧ o = .i32Extend16S)
    (ran : execAll M (op o) s = .ok s') : Top ⟨n,false⟩ s' := by
  obtain ⟨stack,evaluated,rfl⟩ := numeric_parts ran
  obtain ⟨before,_,_,_⟩ := s
  dsimp only at evaluated
  rcases sized with ⟨rfl,rfl⟩ | ⟨rfl,rfl⟩
  all_goals
    rcases before with _ | ⟨a,rest⟩
    · cases evaluated
    cases a <;> cases evaluated
  · exact ⟨_,rest,rfl,canonical_extended (t := ⟨8,false⟩) (by decide) _⟩
  · exact ⟨_,rest,rfl,canonical_extended (t := ⟨16,false⟩) (by decide) _⟩

theorem narrow_top (small : ty.smallType = some t) (ordinary : ty.isBool = false) (ran : execAll M (narrow ty) s = .ok s') :
    Top t s' := by
  cases ty with
  | bool => cases ordinary
  | char u =>
    cases small
    cases u with
    | true => exact masked_top (n := 8) (by decide) rfl ran
    | false => exact extended_top (.inl ⟨rfl,rfl⟩) ran
  | short u =>
    cases small
    cases u with
    | true => exact masked_top (n := 16) (by decide) rfl ran
    | false => exact extended_top (.inr ⟨rfl,rfl⟩) ran
  | _ => cases small

theorem comparison_boolean {F : FloatUnit} {o : NumericOp} {stack stack' : List Value}
    (comparison : o ∈ [.i32Compare .ne,.i64Compare .ne,.f32Compare .ne,.f64Compare .ne])
    (evaluated : o.eval F stack = .ok stack') : ∃ b rest,stack' = boolean b :: rest := by
  simp only [List.mem_cons,List.not_mem_nil,or_false] at comparison
  rcases comparison with rfl | rfl | rfl | rfl
  all_goals
    rcases stack with _ | ⟨b,_ | ⟨a,rest⟩⟩
    · cases evaluated
    · cases b <;> cases evaluated
    cases b <;> cases a <;> cases evaluated
    exact ⟨_,rest,rfl⟩

theorem toBool_top (small : ty.smallType = some t) {vc : ValueType} (ran : execAll M (toBool (some vc)) s = .ok s') : Top t s' := by
  obtain ⟨first,o,same,comparison⟩ : ∃ first o,toBool (some vc) = first ++ op o ∧
      o ∈ [.i32Compare .ne,.i64Compare .ne,.f32Compare .ne,.f64Compare .ne] := by
    cases vc <;> exact ⟨_,_,rfl,by simp⟩
  rw [same] at ran
  obtain ⟨middle,_,second⟩ := append_parts ran
  obtain ⟨stack,evaluated,rfl⟩ := numeric_parts second
  obtain ⟨b,rest,rfl⟩ := comparison_boolean comparison evaluated
  exact ⟨_,rest,rfl,canonical_boolean small b⟩

theorem complemented_run (top : s.stack = .i32 v :: rest) :
    execAll M (i32c (-1) ++ op (.i32 .xor)) s = .ok {s with stack := .i32 (~~~v) :: rest} := by
  refine append_done (i32c_run (-1)) (numeric_run ?_)
  rw [State.push,top,← BitVec.xor_allOnes]
  rfl

theorem convert_same {vc : Option ValueType} {u : Bool} : convert vc vc u = .ok [] := by
  unfold convert
  exact if_pos rfl

theorem as_same {n : Node} {vc : ValueType} (type : n.ty = some ty) (class_ : vclass (some ty) = some vc)
    (made : genExprAs n gen (some vc) = .ok code) : gen = .ok code := by
  obtain ⟨_,_,made⟩ := bind_ok made
  obtain ⟨first,generated,made⟩ := bind_ok made
  obtain ⟨converted,conversion,made⟩ := bind_ok made
  cases made
  rw [type,class_,convert_same] at conversion
  cases conversion
  rw [List.append_nil]
  exact generated

theorem as_kept {n : Node} {vc : ValueType} (type : n.ty = some ty) (class_ : vclass (some ty) = some vc)
    (generated : gen = .ok code) : genExprAs n gen (some vc) = .ok code := by
  unfold genExprAs Node.typed
  rw [type,class_,generated]
  simp only [bind,Except.bind,pure,Except.pure,convert_same,List.append_nil]

-- A cast to a small type narrows exactly when `narrows` says so.
theorem cast_small (small : ty.smallType = some t) (ordinary : ty.isBool = false) (made : cast (some source) ty = .ok code) :
    narrows source ty = true ∧ (∃ first,code = first ++ narrow ty) ∨ narrows source ty = false ∧ code = [] := by
  have scalar := small_scalar small
  have integer : ty.isInteger = true ∧ ty.size ilp32 < 4 := by
    cases ty <;> cases small <;> exact ⟨rfl,by simp [Ty.size]⟩
  unfold cast at made
  dsimp only at made
  rw [if_neg (by rw [scalar.2.1]; decide),if_neg (by rw [ordinary]; decide)] at made
  obtain ⟨converted,conversion,made⟩ := bind_ok made
  split at made
  · rename_i condition
    cases made
    refine .inl ⟨?_,converted,rfl⟩
    simpa [narrows,or_assoc] using condition.2.2.2
  · rename_i condition
    cases made
    have kept : narrows source ty = false := by
      rw [← Bool.not_eq_true]
      intro narrowing
      exact condition ⟨small_class small,integer.1,integer.2,by simpa [narrows,or_assoc] using narrowing⟩
    have class_ : vclass (some source) = some .i32 := by
      simp only [narrows,Bool.or_eq_false_iff,bne_eq_false_iff_eq] at kept
      exact kept.1.2
    rw [class_,small_class small,convert_same] at conversion
    cases conversion
    exact .inr ⟨kept,rfl⟩

theorem cast_kept (small : ty.smallType = some t) (ordinary : ty.isBool = false) (kept : narrows source ty = false) :
    cast (some source) ty = .ok [] := by
  have scalar := small_scalar small
  have class_ : vclass (some source) = some .i32 := by
    simp only [narrows,Bool.or_eq_false_iff,bne_eq_false_iff_eq] at kept
    exact kept.1.2
  unfold cast
  dsimp only
  rw [if_neg (by rw [scalar.2.1]; decide),if_neg (by rw [ordinary]; decide),class_,small_class small,convert_same]
  simp only [bind,Except.bind]
  refine if_neg fun condition => ?_
  have narrowing : narrows source ty = true := by simpa [narrows,class_,or_assoc] using condition.2.2.2
  rw [kept] at narrowing
  cases narrowing

theorem cast_top {operand : Option Ty} (small : ty.smallType = some t) (made : cast operand ty = .ok code)
    (value : ty.isBool = true → vclass operand ≠ none)
    (kept : ∀ source,operand = some source → ty.isBool = false → narrows source ty = false → Top t s)
    (ran : execAll M code s = .ok s') : Top t s' := by
  have scalar := small_scalar small
  cases boolean : ty.isBool with
  | true =>
    obtain ⟨vc,known⟩ := Option.ne_none_iff_exists'.mp (value boolean)
    unfold cast at made
    dsimp only at made
    rw [if_neg (by rw [scalar.2.1]; decide),if_pos boolean,known] at made
    cases made
    exact toBool_top small ran
  | false =>
    cases operand with
    | none =>
      unfold cast at made
      dsimp only at made
      rw [if_neg (by rw [scalar.2.1]; decide),if_neg (by rw [boolean]; decide)] at made
      cases made
    | some source =>
      rcases cast_small small boolean made with ⟨_,first,rfl⟩ | ⟨unnarrowed,rfl⟩
      · obtain ⟨middle,_,second⟩ := append_parts ran
        exact narrow_top small boolean second
      · cases ran
        exact kept source rfl boolean unnarrowed

theorem bitnot_parts {lhs : Node} {left : Gen Code} (type : lhs.ty = some ty) (small : ty.smallType = some t)
    (made : genBitnot (some ty) lhs left = .ok code) :
    ∃ first,left = .ok first ∧ code = first ++ (i32c (-1) ++ op (.i32 .xor)) := by
  have class_ := small_class small
  unfold genBitnot at made
  rw [class_,if_neg (by decide)] at made
  obtain ⟨first,one,made⟩ := bind_ok made
  cases made
  exact ⟨first,as_same type class_ one,List.append_assoc ..⟩

theorem shift_parts {kind : BinaryKind} {lhs rhs : Node} {left right : Gen Code} (shift : kind.rule = .shift)
    (type : lhs.ty = some ty) (small : ty.smallType = some t) (made : genBinary kind (some ty) lhs rhs left right = .ok code) :
    ∃ first second o,left = .ok first ∧ genExprAs rhs right (some .i32) = .ok second ∧
      intOp kind false ty.isUnsigned = .ok o ∧ code = first ++ second ++ op o := by
  have scalar := small_scalar small
  have class_ := small_class small
  have plain : kind.isCmp = false := by cases kind <;> first | rfl | cases shift
  unfold genBinary Node.typed at made
  rw [type] at made
  obtain ⟨_,same,made⟩ := bind_ok made
  cases same
  dsimp only at made
  rw [plain,class_,scalar.2.2.1,scalar.2.2.2.1,scalar.2.2.2.2,Bool.or_false,Bool.or_false] at made
  simp only [Bool.false_eq_true,if_false] at made
  obtain ⟨first,one,made⟩ := bind_ok made
  obtain ⟨second,two,made⟩ := bind_ok made
  obtain ⟨o,three,made⟩ := bind_ok made
  cases made
  exact ⟨first,second,o,as_same type class_ one,two,three,rfl⟩

theorem shl_made {lhs rhs : Node} {left right : Gen Code} {second : Code} (type : lhs.ty = some ty) (small : ty.smallType = some t)
    (one : left = .ok first) (two : genExprAs rhs right (some .i32) = .ok second) :
    genBinary .shl (some ty) lhs rhs left right = .ok (first ++ second ++ op (.i32 .shl)) := by
  have scalar := small_scalar small
  have class_ := small_class small
  unfold genBinary Node.typed
  rw [type]
  simp only [bind,Except.bind,pure,Except.pure,BinaryKind.isCmp,Bool.false_eq_true,if_false,class_,scalar.2.2.1,two,
    as_kept type class_ one]
  rfl

end

end SandboxStack.Cc
