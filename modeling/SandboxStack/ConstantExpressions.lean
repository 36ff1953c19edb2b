import SandboxStack.ConstantNodes

namespace SandboxStack.Cc
open Wasm LinearMemory IntType

section
variable {d : Node → Eval} {n lhs rhs test yes no : Node} {ty tl tr : Ty} {t t₁ t₂ : IntType} {a b v z : Int} {op : BinaryKind}

theorem unary_parts {kind : UnaryKind} (tree : constTree lhs = true) (known : Word ty t)
    (value : cvalue (.unary kind (some ty) lhs) = .ok z) :
    ∃ a, cvalue lhs = .ok a ∧ unaryMeaning true t kind a = .ok z := by
  rw [cvalue_unary tree (show intTypeOf (some ty) = some t from known.known)] at value
  exact bind_ok value

theorem binary_parts (left : constTree lhs = true) (right : constTree rhs = true) (known : Word ty t)
    (plain : op.rule = .arithmetic ∨ op.rule = .comparison ∨ op.rule = .shift)
    (value : cvalue (.binary op (some ty) lhs rhs) = .ok z) :
    ∃ a b, cvalue lhs = .ok a ∧ cvalue rhs = .ok b ∧ arithmetic true t op a b = .ok z := by
  rw [cvalue_binary left right (show intTypeOf (some ty) = some t from known.known) plain] at value
  obtain ⟨a,valueL,value⟩ := bind_ok value
  obtain ⟨b,valueR,value⟩ := bind_ok value
  exact ⟨a,b,valueL,valueR,value⟩

theorem arithmetic_range (wide : t.bits = 32 ∨ t.bits = 64) (plain : op.rule = .arithmetic ∨ op.rule = .shift)
    (one : t.InRange a) (two : op.rule = .shift ∨ t.InRange b) (meaning : arithmetic true t op a b = .ok z) :
    t.InRange z := by
  obtain ⟨o,chosen⟩ : ∃ o, intBinary op t.unsigned = some o := by
    cases op <;> simp [BinaryKind.rule] at plain <;> exact ⟨_,rfl⟩
  have agrees : Agrees t _ (arithmetic true t op a b) := binary_agrees chosen (by omega) (.inr one) (.inr two)
  rw [meaning] at agrees
  exact agrees.1

theorem castTo_type (cast : CastTo (some ty) n) : n.ty = some ty := by
  obtain ⟨e,rfl⟩ := cast
  rfl

theorem arithmetic_evaluates (known : Word ty t) (integer : ty.isInteger = true) (castL : CastTo (some ty) lhs)
    (castR : CastTo (some ty) rhs) (rule : op.rule = .arithmetic) (valueL : cvalue lhs = .ok a)
    (valueR : cvalue rhs = .ok b) (rangeL : t.InRange a) (rangeR : t.InRange b)
    (value : cvalue (.binary op (some ty) lhs rhs) = .ok z) (meaning : arithmetic true t op a b = .ok z)
    (clean : clean (.binary op (some ty) lhs rhs) = true) (one : Evaluates d lhs t a) (two : Evaluates d rhs t b) :
    Evaluates d (.binary op (some ty) lhs rhs) t z := by
  have left := castTo_type castL
  have divided : op = .div ∨ op = .mod → t.bits = 32 → t.unsigned = false → 0 ≤ a ∧ 0 ≤ b := by
    intro division bits signed
    have word : signedWord (some ty) = true := by simp [signedWord,intTypeOf,known.known,bits,signed]
    rcases division with rfl | rfl <;> simp only [Cc.clean,word,Bool.and_eq_true] at clean <;>
      simpa [valueOf_ok valueL,valueOf_ok valueR] using clean.2
  cases op <;> cases rule
  case add =>
    exact modular_evaluates known integer left castL castR valueL valueR (· + ·) rfl
      (fun x y => by rw [BitVec.ofInt_add]; rfl) Int.ModEq.add
      (fun short precise => by simpa [exact,short,valueOf_ok value] using precise) (reduce_value meaning) one two
  case sub =>
    exact modular_evaluates known integer left castL castR valueL valueR (· - ·) rfl
      (fun x y => by rw [ofInt_sub]; rfl) Int.ModEq.sub
      (fun short precise => by simpa [exact,short,valueOf_ok value] using precise) (reduce_value meaning) one two
  case mul =>
    exact modular_evaluates known integer left castL castR valueL valueR (· * ·) rfl
      (fun x y => by rw [BitVec.ofInt_mul]; rfl) Int.ModEq.mul
      (fun short precise => by simpa [exact,short,valueOf_ok value] using precise) (reduce_value meaning) one two
  case div => exact division_evaluates known integer left castL castR (.inl rfl) rangeL rangeR meaning (divided (.inl rfl)) one two
  case mod => exact division_evaluates known integer left castL castR (.inr rfl) rangeL rangeR meaning (divided (.inr rfl)) one two
  case bitand =>
    cases meaning
    exact bitwise_evaluates known integer left castL castR rfl (fun _ x y => x &&& y) (fun _ _ => rfl)
      (fun x y => by simp) (fun short precise => by simpa [exact,short,valueOf_ok value] using precise) rfl one two
  case bitor =>
    cases meaning
    exact bitwise_evaluates known integer left castL castR rfl (fun _ x y => x ||| y) (fun _ _ => rfl)
      (fun x y => by simp) (fun short precise => by simpa [exact,short,valueOf_ok value] using precise) rfl one two
  case bitxor =>
    cases meaning
    exact bitwise_evaluates known integer left castL castR rfl (fun _ x y => x ^^^ y) (fun _ _ => rfl)
      (fun x y => by simp) (fun short precise => by simpa [exact,short,valueOf_ok value] using precise) rfl one two

-- Every evaluated expression of a clean tree keeps its value's residue, whatever it is part of.
theorem eval_evaluates (n : Node) (tree : constTree n = true) (typed : Typed n) (converted : Converted n) :
    ∀ ty t z, n.ty = some ty → Word ty t → cvalue n = .ok z → t.InRange z ∧ (clean n = true → Evaluates d n t z) := by
  induction n with
  | num ty number =>
    intro ty t z type known value
    cases type
    obtain ⟨_,_,type,_,integer⟩ := constTree_type tree
    cases type
    simp only [constTree,Bool.and_eq_true] at tree
    have meaning : cvalue (.num (some ty) number) = .ok (t.wrap number.val) := by
      show (ceval true _ _ _).map Prod.fst = _
      rw [ceval,known_type known.known]
      rfl
    rw [meaning] at value
    cases value
    exact ⟨wrap_range,fun _ => num_evaluates number known integer tree.2⟩
  | unary kind ty lhs ih =>
    intro ty t z type known value
    cases type
    obtain ⟨_,_,type,_,integer⟩ := constTree_type tree
    cases type
    simp only [constTree,Bool.and_eq_true] at tree
    obtain ⟨inner,rule⟩ := typed
    obtain ⟨tl,t₁,left,knownL,integerL⟩ := constTree_type tree.2
    obtain ⟨a,valueL,meaning⟩ := unary_parts tree.2 known value
    obtain ⟨range,operand⟩ := ih tree.2 inner converted.1 tl t₁ a left knownL valueL
    cases kind with
    | neg =>
      have same := reduce_value meaning
      have cast := converted.2 rfl
      rw [castTo_type cast] at left
      cases left
      cases known.known.symm.trans knownL.known
      exact ⟨same ▸ wrap_range,fun clean => neg_evaluates known integer cast valueL value same
        (operand (by simpa [Cc.clean] using clean))⟩
    | not =>
      cases meaning
      cases rule
      cases known.known
      refine ⟨truth_range,fun clean => ?_⟩
      simp only [Cc.clean,Bool.and_eq_true] at clean
      exact not_evaluates range knownL.wide valueL clean.2 (operand clean.1)
    | bitnot =>
      cases meaning
      have same : some ty = some tl := rule.trans left
      cases same
      cases known.known.symm.trans knownL.known
      refine ⟨wrap_range,fun clean => ?_⟩
      exact bitnot_evaluates known integer range rfl (operand (by simpa [Cc.clean] using clean))
    | cast =>
      cases meaning
      refine ⟨wrap_range,fun clean => ?_⟩
      simp only [Cc.clean,Bool.and_eq_true,Bool.or_eq_true,Bool.not_eq_true'] at clean
      refine cast_evaluates known integer knownL.wide value rfl (fun wide => ?_) (operand clean.1)
      rcases clean.2 with short | whole
      · rw [wide] at short
        cases short
      · exact whole
    | addr => cases meaning
    | deref => cases meaning
  | binary op ty lhs rhs ihl ihr =>
    intro ty t z type known value
    cases type
    obtain ⟨_,_,type,_,integer⟩ := constTree_type tree
    cases type
    simp only [constTree,Bool.and_eq_true] at tree
    obtain ⟨⟨⟨assigns,_⟩,treeL⟩,treeR⟩ := tree
    obtain ⟨innerL,innerR,rule⟩ := typed
    obtain ⟨convertedL,convertedR,casts⟩ := converted
    obtain ⟨tl,t₁,left,knownL,integerL⟩ := constTree_type treeL
    obtain ⟨tr,t₂,right,knownR,integerR⟩ := constTree_type treeR
    have one := fun a => ihl treeL innerL convertedL tl t₁ a left knownL
    have two := fun b => ihr treeR innerR convertedR tr t₂ b right knownR
    cases class_ : op.rule with
    | arithmetic =>
      rw [class_] at casts
      obtain ⟨castL,castR⟩ := casts
      rw [castTo_type castL] at left
      rw [castTo_type castR] at right
      cases left
      cases right
      cases known.known.symm.trans knownL.known
      cases known.known.symm.trans knownR.known
      obtain ⟨a,b,valueL,valueR,meaning⟩ := binary_parts treeL treeR known (.inl class_) value
      obtain ⟨rangeL,holdsL⟩ := one a valueL
      obtain ⟨rangeR,holdsR⟩ := two b valueR
      refine ⟨arithmetic_range known.wide (.inl class_) rangeL (.inr rangeR) meaning,fun clean => ?_⟩
      have operands : Cc.clean lhs = true ∧ Cc.clean rhs = true := by
        cases op <;> cases class_ <;> simp_all [Cc.clean]
      exact arithmetic_evaluates known integer castL castR class_ valueL valueR rangeL rangeR value meaning clean
        (holdsL operands.1) (holdsR operands.2)
    | comparison =>
      rw [class_] at casts rule
      obtain ⟨ty',castL,castR⟩ := casts
      obtain ⟨sameTypes,result⟩ := rule
      cases result
      cases known.known
      have same : some tl = some tr := left.symm.trans (sameTypes.trans right)
      cases same
      cases knownL.known.symm.trans knownR.known
      obtain ⟨e,rfl⟩ := castL
      cases left
      obtain ⟨a,b,valueL,valueR,meaning⟩ := binary_parts treeL treeR known (.inr (.inl class_)) value
      obtain ⟨rangeL,holdsL⟩ := one a valueL
      obtain ⟨rangeR,holdsR⟩ := two b valueR
      have truths : ∃ p, z = truth p := by
        cases op <;> cases class_ <;> cases meaning <;> exact ⟨_,rfl⟩
      obtain ⟨p,rfl⟩ := truths
      refine ⟨truth_range,fun clean => ?_⟩
      have operands : Cc.clean (.unary .cast (some tl) e) = true ∧ Cc.clean rhs = true := by
        cases op <;> cases class_ <;> simp_all [Cc.clean]
      refine comparison_evaluates knownL integerL rfl ⟨e,rfl⟩ castR class_ rangeL rangeR meaning ?_
        (holdsL operands.1) (holdsR operands.2)
      intro order bits signed
      have word : signedWord (some tl) = true := by simp [signedWord,intTypeOf,knownL.known,bits,signed]
      rcases order with rfl | rfl <;> simp only [Cc.clean,Node.ty,word,Bool.and_eq_true] at clean <;>
        simpa [valueOf_ok valueL,valueOf_ok valueR] using clean.2
    | shift =>
      rw [class_] at rule
      have same : some ty = some tl := rule.trans left
      cases same
      cases known.known.symm.trans knownL.known
      obtain ⟨a,b,valueL,valueR,meaning⟩ := binary_parts treeL treeR known (.inr (.inr class_)) value
      obtain ⟨rangeL,holdsL⟩ := one a valueL
      obtain ⟨rangeR,holdsR⟩ := two b valueR
      refine ⟨arithmetic_range known.wide (.inr class_) rangeL (.inl class_) meaning,fun clean => ?_⟩
      cases op <;> cases class_
      · simp only [Cc.clean,Bool.and_eq_true] at clean
        exact shl_evaluates known integer left valueL valueR value meaning clean.2 (holdsL clean.1.1) (holdsR clean.1.2)
      · simp only [Cc.clean,Bool.and_eq_true] at clean
        exact shr_evaluates known integer left rangeL meaning clean.1.2 clean.2 (holdsL clean.1.1.1) (holdsR clean.1.1.2)
    | logical =>
      rw [class_] at rule
      cases rule
      cases known.known
      cases op <;> cases class_
      · rw [cvalue_logand treeL treeR] at value
        obtain ⟨a,valueL,value⟩ := bind_ok value
        obtain ⟨rangeL,holdsL⟩ := one a valueL
        by_cases zero : a = 0
        · rw [if_pos zero] at value
          cases value
          refine ⟨zero_range,fun clean => ?_⟩
          simp only [Cc.clean,Bool.and_eq_true] at clean
          have evaluated : Evaluates d (.binary .logand (some (.int false)) lhs rhs) ⟨32,false⟩ _ :=
            logand_evaluates (b := 0) (u := t₂) integer rangeL knownL.wide valueL clean.1.2 (holdsL clean.1.1) (absurd zero)
          rwa [if_pos zero] at evaluated
        · rw [if_neg zero] at value
          obtain ⟨b,valueR,value⟩ := bind_ok value
          cases value
          obtain ⟨rangeR,holdsR⟩ := two b valueR
          refine ⟨truth_range,fun clean => ?_⟩
          simp only [Cc.clean,Bool.and_eq_true,Bool.or_eq_true,valueOf_ok valueL,decide_eq_true_eq,zero,false_or] at clean
          have evaluated := logand_evaluates (t := ⟨32,false⟩) integer rangeL knownL.wide valueL clean.1.2 (holdsL clean.1.1)
            fun _ => ⟨rangeR,knownR.wide,valueR,clean.2.2,holdsR clean.2.1⟩
          rwa [if_neg zero] at evaluated
      · rw [cvalue_logor treeL treeR] at value
        obtain ⟨a,valueL,value⟩ := bind_ok value
        obtain ⟨rangeL,holdsL⟩ := one a valueL
        by_cases zero : a = 0
        · rw [if_neg (not_not.mpr zero)] at value
          obtain ⟨b,valueR,value⟩ := bind_ok value
          cases value
          obtain ⟨rangeR,holdsR⟩ := two b valueR
          refine ⟨truth_range,fun clean => ?_⟩
          simp only [Cc.clean,Bool.and_eq_true,Bool.or_eq_true,valueOf_ok valueL,decide_eq_true_eq,zero,ne_eq,
            not_true_eq_false,false_or] at clean
          have evaluated := logor_evaluates (t := ⟨32,false⟩) integer rangeL knownL.wide valueL clean.1.2 (holdsL clean.1.1)
            fun _ => ⟨rangeR,knownR.wide,valueR,clean.2.2,holdsR clean.2.1⟩
          rwa [if_neg (not_not.mpr zero)] at evaluated
        · rw [if_pos zero] at value
          cases value
          refine ⟨truth_range (b := true),fun clean => ?_⟩
          simp only [Cc.clean,Bool.and_eq_true] at clean
          have evaluated : Evaluates d (.binary .logor (some (.int false)) lhs rhs) ⟨32,false⟩ _ :=
            logor_evaluates (b := 0) (u := t₂) integer rangeL knownL.wide valueL clean.1.2 (holdsL clean.1.1)
              fun wrong => absurd wrong zero
          rwa [if_pos zero] at evaluated
    | comma =>
      rw [class_] at rule
      have same : some ty = some tr := rule.trans right
      cases same
      cases known.known.symm.trans knownR.known
      cases op <;> cases class_
      rw [cvalue_comma treeL] at value
      obtain ⟨_,_,valueR⟩ := bind_ok value
      obtain ⟨range,holds⟩ := two z valueR
      exact ⟨range,fun clean => comma_evaluates known integer (holds (by simpa [Cc.clean] using clean))⟩
    | assign =>
      cases op <;> cases class_
      cases assigns
  | cond ty test yes no ihc ihy ihn =>
    intro ty t z type known value
    cases type
    obtain ⟨_,_,type,_,integer⟩ := constTree_type tree
    cases type
    simp only [constTree,Bool.and_eq_true] at tree
    obtain ⟨⟨⟨_,treeC⟩,treeY⟩,treeN⟩ := tree
    obtain ⟨innerC,innerY,innerN,_⟩ := typed
    obtain ⟨convertedC,convertedY,convertedN,void | ⟨castY,castN⟩⟩ := converted
    · cases void
      cases integer
    obtain ⟨tc,t₁,condition,knownC,_⟩ := constTree_type treeC
    rw [cvalue_cond treeC] at value
    obtain ⟨a,valueC,value⟩ := bind_ok value
    obtain ⟨rangeC,holdsC⟩ := ihc treeC innerC convertedC tc t₁ a condition knownC valueC
    have chosen : t.InRange z ∧
        (clean (if a ≠ 0 then yes else no) = true → Evaluates d (if a ≠ 0 then yes else no) t z) := by
      by_cases zero : a = 0
      · rw [if_neg (not_not.mpr zero)] at value ⊢
        exact ihn treeN innerN convertedN ty t z (castTo_type castN) known value
      · rw [if_pos zero] at value ⊢
        exact ihy treeY innerY convertedY ty t z (castTo_type castY) known value
    refine ⟨chosen.1,fun clean => ?_⟩
    simp only [Cc.clean,Bool.and_eq_true,valueOf_ok valueC] at clean
    refine cond_evaluates known integer rangeC knownC.wide valueC clean.1.2 (holdsC clean.1.1) (chosen.2 ?_)
    by_cases zero : a = 0
    · rw [if_neg (not_not.mpr zero)] at clean ⊢
      exact clean.2
    · rw [if_pos zero] at clean ⊢
      exact clean.2
  | _ => cases tree

theorem newCast_converted {e : Node} {ty : Ty} (converted : Converted e) : Converted (e.newCast ty) :=
  ⟨converted,fun wrong => by cases wrong⟩

theorem unaryType_converted {T : Target} {kind : UnaryKind} {n' : Node} (operand : Converted lhs)
    (made : unaryType T kind lhs = .ok n') : Converted n' := by
  cases kind with
  | neg =>
    obtain ⟨ty,_,rest⟩ := bind_ok made
    cases rest
    exact ⟨newCast_converted operand,fun _ => ⟨lhs,rfl⟩⟩
  | not => cases made; exact ⟨operand,fun wrong => by cases wrong⟩
  | bitnot => cases made; exact ⟨operand,fun wrong => by cases wrong⟩
  | addr =>
    obtain ⟨ty,_,rest⟩ := bind_ok made
    split at rest <;> (cases rest; exact ⟨operand,fun wrong => by cases wrong⟩)
  | deref =>
    obtain ⟨ty,_,rest⟩ := bind_ok made
    split at rest
    · cases rest
    · cases rest
    · cases rest; exact ⟨operand,fun wrong => by cases wrong⟩
  | cast => cases made; exact ⟨operand,fun wrong => by cases wrong⟩

theorem binaryType_converted {T : Target} {n' : Node} (left : Converted lhs) (right : Converted rhs)
    (made : binaryType T op lhs rhs = .ok n') : Converted n' := by
  unfold binaryType at made
  cases rule : op.rule with
  | arithmetic =>
    rw [rule] at made
    obtain ⟨t1,_,rest⟩ := bind_ok made
    obtain ⟨t2,_,rest⟩ := bind_ok rest
    cases rest
    refine ⟨newCast_converted left,newCast_converted right,?_⟩
    rw [rule]
    exact ⟨⟨lhs,rfl⟩,⟨rhs,rfl⟩⟩
  | comparison =>
    rw [rule] at made
    obtain ⟨t1,_,rest⟩ := bind_ok made
    obtain ⟨t2,_,rest⟩ := bind_ok rest
    cases rest
    refine ⟨newCast_converted left,newCast_converted right,?_⟩
    rw [rule]
    exact ⟨_,⟨lhs,rfl⟩,⟨rhs,rfl⟩⟩
  | assign =>
    rw [rule] at made
    obtain ⟨ty,_,rest⟩ := bind_ok made
    split at rest
    · cases rest
    · cases rest
      refine ⟨left,right,?_⟩
      rw [rule]
      trivial
    · cases rest
      refine ⟨left,newCast_converted right,?_⟩
      rw [rule]
      trivial
  | _ =>
    rw [rule] at made
    cases made
    refine ⟨left,right,?_⟩
    rw [rule]
    trivial

theorem condType_converted {T : Target} {n' : Node} (one : Converted test) (two : Converted yes) (three : Converted no)
    (made : condType T test yes no = .ok n') : Converted n' := by
  obtain ⟨t1,_,rest⟩ := bind_ok made
  obtain ⟨t2,_,rest⟩ := bind_ok rest
  split at rest
  · cases rest
    exact ⟨one,two,three,.inl rfl⟩
  · cases rest
    exact ⟨one,newCast_converted two,newCast_converted three,.inr ⟨⟨yes,rfl⟩,⟨no,rfl⟩⟩⟩

-- add_type of a constant expression types it and converts its operands.
theorem constParsed_parsed (parsed : ConstParsed n) : Parsed n := by
  induction n with
  | unary kind ty lhs ih =>
    cases ty with
    | none => exact ⟨parsed.1,ih parsed.2⟩
    | some ty => exact parsed.1
  | binary op ty lhs rhs ihl ihr =>
    cases ty with
    | none => exact ⟨ihl parsed.1,ihr parsed.2⟩
    | some ty => exact parsed.1
  | cond ty test yes no ihc ihy ihn =>
    cases ty with
    | none => exact ⟨ihc parsed.1,ihy parsed.2.1,ihn parsed.2.2⟩
    | some ty => exact parsed.1
  | var ty v =>
    cases ty with
    | none => trivial
    | some ty => exact parsed.1
  | _ => exact parsed.1

theorem addType_converted {T : Target} {n n' : Node} (parsed : ConstParsed n) (made : addType T n = .ok n') :
    Converted n' := by
  induction n generalizing n' with
  | num ty number => cases ty <;> (cases made; trivial)
  | var ty v => cases ty <;> (cases made; trivial)
  | unary kind ty lhs ih =>
    cases ty with
    | none =>
      obtain ⟨typed,first,rest⟩ := bind_ok made
      exact unaryType_converted (ih parsed.2 first) rest
    | some ty => cases made; exact parsed.2
  | binary op ty lhs rhs ihl ihr =>
    cases ty with
    | none =>
      obtain ⟨left,first,rest⟩ := bind_ok made
      obtain ⟨right,second,rest⟩ := bind_ok rest
      exact binaryType_converted (ihl parsed.1 first) (ihr parsed.2 second) rest
    | some ty => cases made; exact parsed.2
  | cond ty test yes no ihc ihy ihn =>
    cases ty with
    | none =>
      obtain ⟨condition,first,rest⟩ := bind_ok made
      obtain ⟨one,second,rest⟩ := bind_ok rest
      obtain ⟨two,third,rest⟩ := bind_ok rest
      exact condType_converted (ihc parsed.1 first) (ihy parsed.2.1 second) (ihn parsed.2.2 third) rest
    | some ty => cases made; exact parsed.2
  | member ty m lhs ih =>
    cases ty with
    | none =>
      obtain ⟨typed,first,rest⟩ := bind_ok made
      cases rest
      trivial
    | some ty => cases made; trivial
  | funcall ty funcTy lhs args retBuffer ih ihs =>
    cases ty with
    | none =>
      cases funcTy with
      | func returnTy params isVariadic =>
        obtain ⟨typed,first,rest⟩ := bind_ok made
        obtain ⟨more,second,rest⟩ := bind_ok rest
        cases rest
        trivial
      | _ => cases made; trivial
    | some ty => cases made; trivial
  | _ => cases made; trivial

-- What has its type is left as it is.
theorem typed_constParsed {ty : Ty} (type : n.ty = some ty) (typed : Typed n) (converted : Converted n) : ConstParsed n := by
  cases n with
  | unary kind known lhs => cases type; exact ⟨typed,converted⟩
  | binary kind known lhs rhs => cases type; exact ⟨typed,converted⟩
  | cond known test yes no => cases type; exact ⟨typed,converted⟩
  | var known v => cases type; exact ⟨typed,converted⟩
  | _ => exact ⟨typed,converted⟩

theorem numeric_typed {ty : Option Ty} (numeric : isNumeric ty = true) : ∃ t, ty = some t := by
  cases ty with
  | none => cases numeric
  | some t => exact ⟨t,rfl⟩

-- The sums and differences the parser builds of such expressions are such expressions.
theorem newNumeric_parsed {kind : BinaryKind} (left : ConstParsed lhs) (right : ConstParsed rhs)
    (made : newNumeric kind lhs rhs = .ok (some n)) : ConstParsed n := by
  obtain ⟨lhs',one,made⟩ := bind_ok made
  obtain ⟨rhs',two,made⟩ := bind_ok made
  have built := Except.ok.inj made
  split at built
  · rename_i numeric
    obtain ⟨numericL,numericR⟩ := (Bool.and_eq_true ..).mp numeric
    obtain ⟨tl,typeL⟩ := numeric_typed numericL
    obtain ⟨tr,typeR⟩ := numeric_typed numericR
    cases built
    exact ⟨typed_constParsed typeL (addType_typed (constParsed_parsed left) one) (addType_converted left one),
      typed_constParsed typeR (addType_typed (constParsed_parsed right) two) (addType_converted right two)⟩
  · cases built

theorem constTree_word (tree : constTree n = true) : wordTree n = true := by
  induction n with
  | num ty number =>
    simp only [constTree,isConstType,Bool.and_eq_true] at tree
    exact tree.1.1
  | unary kind ty lhs ih =>
    simp only [constTree,isConstType,Bool.and_eq_true] at tree
    simp only [wordTree,Bool.and_eq_true]
    exact ⟨⟨tree.1.1,tree.1.2.1⟩,ih tree.2⟩
  | binary op ty lhs rhs ihl ihr =>
    simp only [constTree,isConstType,Bool.and_eq_true] at tree
    simp only [wordTree,Bool.and_eq_true,Bool.or_eq_true]
    exact ⟨⟨⟨.inl tree.1.1.1,tree.1.1.2.1⟩,ihl tree.1.2⟩,ihr tree.2⟩
  | cond ty test yes no ihc ihy ihn =>
    simp only [constTree,isConstType,Bool.and_eq_true] at tree
    simp only [wordTree,Bool.and_eq_true]
    exact ⟨⟨⟨tree.1.1.1.1,ihc tree.1.1.2⟩,ihy tree.1.2⟩,ihn tree.2⟩
  | _ => cases tree

theorem constTree_stored {place : Obj → Nat} {size : Nat} (tree : constTree n = true) : Stored place size n := by
  induction n with
  | num ty number => trivial
  | unary kind ty lhs ih =>
    simp only [constTree,Bool.and_eq_true] at tree
    exact ih tree.2
  | binary op ty lhs rhs ihl ihr =>
    simp only [constTree,Bool.and_eq_true] at tree
    exact ⟨ihl tree.1.2,ihr tree.2⟩
  | cond ty test yes no ihc ihy ihn =>
    simp only [constTree,Bool.and_eq_true] at tree
    exact ⟨ihc tree.1.1.2,ihy tree.1.2,ihn tree.2⟩
  | _ => cases tree

theorem represent_congruent (wide : t.bits = 32 ∨ t.bits = 64) (same : v % 2 ^ t.bits = z % 2 ^ t.bits) :
    represent t.bits v = represent t.bits z := by
  rcases wide with bits | bits <;> rw [bits] at same ⊢ <;> simp [represent,ofInt_congruent.mpr same]

theorem represent_residue (wide : t.bits = 32 ∨ t.bits = 64) :
    represent t.bits (BitVec.ofInt 64 v).toInt = represent t.bits v := by
  rcases wide with bits | bits <;> rw [bits]
  · have narrowed := truncate_of (a := (BitVec.ofInt 64 v).toInt) (v := 64) (w := 32) (by decide)
    rw [BitVec.ofInt_toInt,truncate_of (by decide)] at narrowed
    simp [represent,narrowed]
  · simp only [represent,if_true,BitVec.ofInt_toInt]

end

-- const_expr accepts the tree, and its result in the bits of the expression's
-- type is what the code of gen_expr leaves on the operand stack.
def ConstantAgrees (d : Node → Eval) (M : Machine) (s : State) (n n' : Node) (code : Code) : Prop :=
  ∃ t h s', intTypeOf n'.ty = some t ∧ constExpr d n = .ok h ∧ execAll M code s = .ok s' ∧
    s'.stack = represent t.bits h.toInt :: s.stack ∧ s'.memory = s.memory

theorem constant_expressions_agree (d : Node → Eval) (M : Machine) (c : Context) (depth : Nat) (fpv : U32) (n n' : Node)
    (code : Code) (s : State) (z : Int) (parsed : ConstParsed n) (typed : addType ilp32 n = .ok n')
    (tree : constTree n' = true) (defined : cvalue n' = .ok z) (generated : genExpr c depth n' = .ok code)
    (framed : s.locals c.fp = .i32 fpv) (condition : clean n' = true) : ConstantAgrees d M s n n' code := by
  have typing := addType_typed (constParsed_parsed parsed) typed
  have converted := addType_converted parsed typed
  obtain ⟨ty,t,type,known,_⟩ := constTree_type tree
  obtain ⟨range,evaluates⟩ := eval_evaluates (d := d) n' tree typing converted ty t z type known defined
  obtain ⟨v,ran,held⟩ := evaluates condition
  have meets : Meets M c s.stack s code t t.bits (ceval true (placeOf c fpv) n' s.memory) :=
    genExpr_correct n' typing (constTree_word tree) depth ty t s code type known framed (constTree_stored tree) generated
  rw [ceval_constant tree,defined] at meets
  obtain ⟨_,s',executed,stack,memory,_⟩ := meets
  refine ⟨t,BitVec.ofInt 64 v,s',by rw [type]; exact known.known,?_,executed,?_,memory⟩
  · rw [constExpr,typed]
    exact ran
  · rw [represent_residue known.wide,represent_congruent known.wide held.congruent]
    exact stack

namespace Controls

-- -1 < 0, which the zero-extended cast of the left operand falsifies.
def negativeBelow : Node := .binary .lt none (.unary .neg none (literal (.int false) 1)) (literal (.int false) 0)
def typedNegativeBelow : Node := ((addType ilp32 negativeBelow).toOption).getD .nullExpr
def negativeBelowCode : Code := ((genExpr context 0 typedNegativeBelow).toOption).getD []

-- 7 - 2 * 4LL / 3u + 1, built from left to right.
def quotient : Node :=
  .binary .div none (.binary .mul none (literal (.int false) 2) (literal (.llong false) 4)) (literal (.int true) 3)
def difference : Node := ((newSub (literal (.int false) 7) quotient).toOption.join).getD .nullExpr
def mixed : Node := ((newAdd difference (literal (.int false) 1)).toOption.join).getD .nullExpr
def typedMixed : Node := ((addType ilp32 mixed).toOption).getD .nullExpr
def mixedCode : Code := ((genExpr context 0 typedMixed).toOption).getD []

end Controls

open Controls in
theorem constant_expressions_agree_mixed :
    newSub (literal (.int false) 7) quotient = .ok (some difference) ∧
    newAdd difference (literal (.int false) 1) = .ok (some mixed) ∧
    ConstantAgrees (fun _ => notConstant) machine frame mixed typedMixed mixedCode := by
  have seven : ConstParsed (literal (.int false) 7) := ⟨trivial,trivial⟩
  have one : ConstParsed (literal (.int false) 1) := ⟨trivial,trivial⟩
  have divided : ConstParsed quotient := ⟨⟨⟨trivial,trivial⟩,trivial,trivial⟩,trivial,trivial⟩
  have subtracted : newSub (literal (.int false) 7) quotient = .ok (some difference) := rfl
  have built : newAdd difference (literal (.int false) 1) = .ok (some mixed) := rfl
  have parsed := newNumeric_parsed (newNumeric_parsed seven divided subtracted) one built
  exact ⟨subtracted,built,constant_expressions_agree _ machine context 0 1024 mixed typedMixed mixedCode frame 6
    parsed rfl (by decide) (by decide) rfl rfl (by decide)⟩

open Controls in
theorem constant_expressions_disagree :
    ConstParsed negativeBelow ∧ addType ilp32 negativeBelow = .ok typedNegativeBelow ∧ constTree typedNegativeBelow = true ∧
      cvalue typedNegativeBelow = .ok 1 ∧ genExpr context 0 typedNegativeBelow = .ok negativeBelowCode ∧
      constExpr (fun _ => notConstant) negativeBelow = .ok 0 ∧
      ¬ConstantAgrees (fun _ => notConstant) machine frame negativeBelow typedNegativeBelow negativeBelowCode := by
  have evaluated : constExpr (fun _ => notConstant) negativeBelow = .ok 0 := by decide
  have executed : execAll machine negativeBelowCode frame = .ok (frame.push (.i32 1)) := rfl
  refine ⟨⟨⟨by decide,trivial,trivial⟩,trivial,trivial⟩,rfl,by decide,by decide,rfl,evaluated,?_⟩
  rintro ⟨t,h,s',type,value,ran,stack,_⟩
  rw [evaluated] at value
  rw [executed] at ran
  cases value
  cases ran
  cases type
  cases stack

end SandboxStack.Cc
