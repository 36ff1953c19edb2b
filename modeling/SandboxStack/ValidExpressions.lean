import SandboxStack.GenExpr
import SandboxStack.ShapedTrees
import SandboxStack.WasmTyping

namespace SandboxStack.Cc
open Wasm

def classes : List Ty → Option (List ValueType)
  | [] => some []
  | p :: rest => do
    let v ← vclass (some p)
    let rest ← classes rest
    return v :: rest

-- sig_index: the type entry of a function type. A parameter of type void has no encoding.
def signature : Ty → Option FuncType
  | .func returnTy params isVariadic => do
    let ps ← classes params
    return ⟨(if returnTy.isStruct then [.i32] else []) ++ ps ++ if isVariadic then [.i32] else [],
      if returnTy.isStruct then [] else (vclass (some returnTy)).toList⟩
  | _ => none

-- The scratch locals of a function.
structure Numbered (c : Context) (G : Typing) : Prop where
  fp : G.locals c.fp = some .i32
  t32 : G.locals c.t32 = some .i32
  t32b : G.locals c.t32b = some .i32
  t64 : G.locals c.t64 = some .i64
  tf32 : G.locals c.tf32 = some .f32
  tf64 : G.locals c.tf64 = some .f64

-- Whether the code of an expression, as an address and as a value, can be valid.
structure Sides where
  addr : Prop
  value : Prop

def StructArgs : List Ty → List Node → Prop
  | p :: params,a :: args => (p.isStruct = true → vclass a.ty = some .i32) ∧ StructArgs params args
  | _,_ => True

def CallSound (c : Context) (G : Typing) (funcTy : Ty) (lhs : Node) (lhsSound : Prop) (args : List Node) : Prop :=
  match (callee lhs).map Obj.name with
  | some "__builtin_wasm_memory_size" => ∀ a ∈ args, vclass a.ty ≠ none
  | some "__builtin_wasm_memory_grow" => ∀ a ∈ args, vclass a.ty ≠ none
  | _ =>
    match funcTy with
    | .func _ params _ => StructArgs params args ∧ ∃ f, signature funcTy = some f ∧
        match callee lhs with
        | some fn => ∀ i, funcIdx c fn = .ok i → G.funcs i = some f
        | none => lhsSound ∧ G.types (c.sigIndex funcTy) = some f
    | _ => True

section
variable (c : Context) (G : Typing)

mutual

-- No void expression where a value is tested or made a _Bool, no void object
-- read, no shift of two void operands, no ~ of a float, structs assigned and
-- passed from operands of class i32, calls through the type entry of the function.
def sides : Node → Sides
  | .nullExpr | .num _ _ | .memzero _ | .unsupported _ => ⟨True,True⟩
  | .var ty _ => ⟨True,vclass ty ≠ none⟩
  | .unary kind ty lhs =>
    let operand := sides lhs
    match kind with
    | .neg => ⟨True,operand.value⟩
    | .not => ⟨True,operand.value ∧ vclass lhs.ty ≠ none⟩
    | .bitnot => ⟨True,operand.value ∧ isFloatClass (vclass ty) = false⟩
    | .addr => ⟨True,operand.addr⟩
    | .deref => ⟨operand.value,operand.value⟩
    | .cast => ⟨True,operand.value ∧ ((ty.map Ty.isBool).getD false = true → vclass lhs.ty ≠ none)⟩
  | .binary kind ty lhs rhs =>
    let left := sides lhs
    let right := sides rhs
    match kind.rule with
    | .logical => ⟨True,left.value ∧ right.value ∧ vclass lhs.ty ≠ none ∧ vclass rhs.ty ≠ none⟩
    | .comma => ⟨left.value ∧ right.addr,left.value ∧ right.value⟩
    | .assign =>
      let both := left.addr ∧ right.value ∧ ((ty.map Ty.isStruct).getD false = true → vclass rhs.ty = some .i32)
      ⟨both,both⟩
    | .shift => ⟨True,left.value ∧ right.value ∧ vclass ty ≠ none⟩
    | _ => ⟨True,left.value ∧ right.value⟩
  | .member ty _ lhs => ⟨(sides lhs).addr,(sides lhs).addr ∧ vclass ty ≠ none⟩
  | .cond _ test yes no =>
    let all := (sides test).value ∧ (sides yes).value ∧ (sides no).value ∧ vclass test.ty ≠ none
    ⟨all,all⟩
  | .funcall _ funcTy lhs args _ =>
    let all := sidesArgs args ∧ CallSound c G funcTy lhs (sides lhs).value args
    ⟨all,all⟩

def sidesArgs : List Node → Prop
  | [] => True
  | a :: rest => (sides a).value ∧ sidesArgs rest

end

end

section
variable {G : Typing} {c : Context} {code : Code} {z : List ValueType} {ty : Ty} {v : ValueType}

theorem convert_checks {source target : Option ValueType} {u : Bool} (made : convert source target u = .ok code) :
    checkAll G code (source.toList ++ z) = some (target.toList ++ z) := by
  unfold convert at made
  split at made
  · rename_i same
    cases made
    rw [same]
    rfl
  · split at made <;> cases made <;> first | rfl | (split <;> rfl)

theorem toBool_checks : checkAll G (toBool (some v)) (v :: z) = some (.i32 :: z) := by
  cases v <;> rfl

theorem load_checks (made : load ty = .ok code) (value : vclass (some ty) ≠ none) :
    checkAll G code (.i32 :: z) = some ((vclass (some ty)).toList ++ z) := by
  cases ty <;> cases made <;> first | rfl | exact absurd rfl value | (rename_i u; cases u <;> rfl)

theorem store_checks (made : store ty = .ok code) (value : vclass (some ty) = some v) (notStruct : ty.isStruct = false)
    (notArray : ty.isArray = false) : checkAll G code (v :: .i32 :: z) = some z := by
  cases ty <;> cases value <;> first | cases notStruct; done | cases notArray; done | (cases made; rfl)

theorem narrow_checks : checkAll G (narrow ty) (.i32 :: z) = some (.i32 :: z) := by
  unfold narrow
  split
  · rfl
  · split <;> first | rfl | (split <;> rfl)

theorem cast_checks {source : Option Ty} (made : cast source ty = .ok code)
    (tested : ty.isBool = true → vclass source ≠ none) :
    checkAll G code ((vclass source).toList ++ z) = some ((vclass (some ty)).toList ++ z) := by
  unfold cast at made
  dsimp only at made
  split at made
  · rename_i void
    cases made
    rw [class_none.mpr void]
    cases vclass source with
    | none => rfl
    | some v => rfl
  · split at made
    · rename_i bool
      cases made
      have type : ty = .bool := by cases ty <;> simp [Ty.isBool] at bool; rfl
      subst type
      cases known : vclass source with
      | none => exact absurd known (tested rfl)
      | some v => exact toBool_checks
    · cases source with
      | none => cases made
      | some source =>
        obtain ⟨converted,conversion,rest⟩ := bind_ok made
        split at rest
        · rename_i small
          cases rest
          refine checkAll_append (convert_checks conversion) ?_
          rw [small.1]
          exact narrow_checks
        · cases rest
          exact convert_checks conversion

theorem genExprAs_checks {n : Node} {gen : Gen Code} {target : Option ValueType} (made : genExprAs n gen target = .ok code)
    (operand : ∀ code, gen = .ok code → Pushes G code (vclass n.ty).toList) : Pushes G code target.toList := by
  obtain ⟨ty,known,made⟩ := bind_ok made
  obtain ⟨first,generated,made⟩ := bind_ok made
  obtain ⟨converted,conversion,made⟩ := bind_ok made
  cases made
  have converts := convert_checks (G := G) (z := []) conversion
  rw [List.append_nil,List.append_nil] at converts
  exact pushes_append (operand first generated) converts

theorem genCond_checks {n : Node} {gen : Gen Code} (made : genCond n gen = .ok code) (value : vclass n.ty ≠ none)
    (operand : ∀ code, gen = .ok code → Pushes G code (vclass n.ty).toList) : Pushes G code [.i32] := by
  obtain ⟨first,generated,made⟩ := bind_ok made
  cases made
  obtain ⟨v,known⟩ := Option.ne_none_iff_exists'.mp value
  have pushed := operand first generated
  rw [known] at pushed ⊢
  exact pushes_append pushed toBool_checks

theorem localGet_checks {i : Nat} (known : G.locals i = some v) : checkAll G (localGet i) z = some (v :: z) := by
  refine check_plain ?_
  simp [Plain.check,Plain.type,known,FuncType.apply,popAll]

theorem localTee_checks {i : Nat} (known : G.locals i = some v) :
    checkAll G (localTee i) (v :: z) = some (v :: z) := by
  refine check_plain ?_
  simp [Plain.check,Plain.type,known,FuncType.apply,popAll]

theorem fpPlus_checks (numbered : Numbered c G) (off : Int) :
    checkAll G (fpPlus c off) z = some (.i32 :: z) := by
  unfold fpPlus
  refine checkAll_append (localGet_checks numbered.fp) ?_
  split <;> rfl

theorem scratch_known {i : Nat} (numbered : Numbered c G) (made : scratchLocal c (some v) = .ok i) : G.locals i = some v := by
  cases v <;> cases made
  · exact numbered.t32
  · exact numbered.t64
  · exact numbered.tf32
  · exact numbered.tf64

theorem moveSp_checks (o : IntBinary) (size : Nat) : checkAll G (moveSp o size) z = some z := by
  unfold moveSp
  split <;> rfl

theorem fixed_checks {params : List Ty} {ps : List ValueType} {args : List (Node × Gen Code)}
    (known : classes params = some ps) (made : genFixed params.length args = .ok code)
    (shaped : ArgsShaped params (args.map Prod.fst)) (structs : StructArgs params (args.map Prod.fst))
    (operands : ∀ p ∈ args, ∀ code, p.2 = .ok code → Pushes G code (vclass p.1.ty).toList) :
    checkAll G code z = some (ps.reverse ++ z) := by
  induction params generalizing ps args code z with
  | nil => cases known; cases made; rfl
  | cons p params ih =>
    cases args with
    | nil => cases made
    | cons a args =>
      obtain ⟨n,gen⟩ := a
      obtain ⟨v,class_,known⟩ := Option.bind_eq_some_iff.mp known
      obtain ⟨rest,others,same⟩ := Option.bind_eq_some_iff.mp known
      cases same
      obtain ⟨first,generated,made⟩ := bind_ok made
      obtain ⟨second,more,made⟩ := bind_ok made
      cases made
      have type : vclass n.ty = some v := by
        rcases shaped.1 with struct | same
        · have pointer := structs.1 struct
          have struct_class : vclass (some p) = some .i32 := by cases p <;> simp [Ty.isStruct] at struct <;> rfl
          rw [struct_class] at class_
          cases class_
          exact pointer
        · rw [show n.ty = some p from same]
          exact class_
      have pushed := operands (n,gen) (List.mem_cons_self ..) first generated
      dsimp only at pushed
      rw [type] at pushed
      refine checkAll_append pushed.above ?_
      have tail := ih (z := v :: z) others more shaped.2 structs.2 fun q member => operands q (List.mem_cons_of_mem _ member)
      simpa using tail

theorem variadic_checks {slot : Nat} {args : List (Node × Gen Code)} (made : genVariadic slot args = .ok code)
    (operands : ∀ p ∈ args, ∀ code, p.2 = .ok code → Pushes G code (vclass p.1.ty).toList) :
    checkAll G code z = some z := by
  induction args generalizing slot code with
  | nil => cases made; rfl
  | cons a args ih =>
    obtain ⟨n,gen⟩ := a
    obtain ⟨ty,known,made⟩ := bind_ok made
    split at made
    · cases made
    obtain ⟨first,generated,made⟩ := bind_ok made
    have pushed := operands (n,gen) (List.mem_cons_self ..) first generated
    have slotCode : checkAll G ([.plain .globalGet] ++ if slot ≠ 0 then i32c (slot * 8) ++ op (.i32 .add) else []) z =
        some (.i32 :: z) := by
      split <;> rfl
    have whole : ∀ {v : ValueType} {stored rest : Code}, vclass n.ty = some v →
        checkAll G stored (v :: .i32 :: z) = some z → genVariadic (slot + 1) args = .ok rest →
        checkAll G (([.plain .globalGet] ++ if slot ≠ 0 then i32c (slot * 8) ++ op (.i32 .add) else []) ++ first ++ stored ++ rest)
          z = some z := by
      intro v stored rest class_ store more
      rw [class_] at pushed
      simp only [List.append_assoc] at slotCode ⊢
      rw [← List.append_assoc]
      refine checkAll_append slotCode (checkAll_append pushed.above (checkAll_append store ?_))
      exact ih more fun q member => operands q (List.mem_cons_of_mem _ member)
    dsimp only at made
    split at made
    all_goals
      rename_i class_
      obtain ⟨stored,same,made⟩ := bind_ok made
      cases same
    all_goals
      obtain ⟨rest,more,made⟩ := bind_ok made
      cases made
      exact whole class_ rfl more

theorem dropped_checks {args : List (Node × Gen Code)} (made : genDropped args = .ok code)
    (values : ∀ p ∈ args, vclass p.1.ty ≠ none)
    (operands : ∀ p ∈ args, ∀ code, p.2 = .ok code → Pushes G code (vclass p.1.ty).toList) :
    checkAll G code z = some z := by
  induction args generalizing code with
  | nil => cases made; rfl
  | cons a args ih =>
    obtain ⟨n,gen⟩ := a
    obtain ⟨first,generated,made⟩ := bind_ok made
    obtain ⟨rest,more,made⟩ := bind_ok made
    cases made
    obtain ⟨v,known⟩ := Option.ne_none_iff_exists'.mp (values (n,gen) (List.mem_cons_self ..))
    have pushed := operands (n,gen) (List.mem_cons_self ..) first generated
    rw [known] at pushed
    rw [List.append_assoc]
    refine checkAll_append pushed.above (checkAll_append (u := z) rfl ?_)
    exact ih more (fun q member => values q (List.mem_cons_of_mem _ member))
      fun q member => operands q (List.mem_cons_of_mem _ member)

theorem droppedValue_checks {n : Node} (pushed : Pushes G code (vclass n.ty).toList) :
    checkAll G (droppedValue n code) z = some z := by
  unfold droppedValue
  split
  · rename_i value
    obtain ⟨v,known⟩ := Option.ne_none_iff_exists'.mp value
    rw [known] at pushed
    exact checkAll_append pushed.above rfl
  · rename_i void
    rw [not_not.mp void] at pushed
    exact pushed.above

theorem apply_params (f : FuncType) : f.apply (f.params.reverse ++ z) = some (f.results.reverse ++ z) := by
  rw [FuncType.apply,popAll_append]
  rfl

theorem call_checks {i : Nat} {f : FuncType} (known : G.funcs i = some f) :
    checkAll G [.plain (.call i)] (f.params.reverse ++ z) = some (f.results.reverse ++ z) := by
  refine check_plain ?_
  simp [Plain.check,Plain.type,known,apply_params]

theorem callIndirect_checks {i : Nat} {f : FuncType} (known : G.types i = some f) :
    checkAll G [.plain (.callIndirect i)] (.i32 :: f.params.reverse ++ z) = some (f.results.reverse ++ z) := by
  refine check_plain ?_
  have applied := apply_params (z := z) ⟨f.params ++ [.i32],f.results⟩
  simp only [List.reverse_append,List.reverse_singleton,List.cons_append,List.nil_append] at applied
  simp [Plain.check,Plain.type,known,applied]

theorem target_checks {funcTy : Ty} {f : FuncType} {lhs : Node} {lhsCode : Gen Code}
    (made : genTarget c funcTy lhs lhsCode = .ok code)
    (entry : match callee lhs with
      | some fn => ∀ i, funcIdx c fn = .ok i → G.funcs i = some f
      | none => (∀ code, lhsCode = .ok code → Pushes G code (vclass lhs.ty).toList) ∧ G.types (c.sigIndex funcTy) = some f) :
    checkAll G code (f.params.reverse ++ z) = some (f.results.reverse ++ z) := by
  unfold genTarget at made
  cases target : callee lhs with
  | some fn =>
    rw [target] at made entry
    obtain ⟨i,index,made⟩ := bind_ok made
    cases made
    exact call_checks (entry i index)
  | none =>
    rw [target] at made entry
    obtain ⟨pointer,generated,made⟩ := bind_ok made
    cases made
    exact checkAll_append (genExprAs_checks generated entry.1).above (callIndirect_checks entry.2)

theorem retBuffer_checks (numbered : Numbered c G) (retBuffer : Option Obj) :
    checkAll G (retBufferCode c retBuffer) z = some ((if retBuffer.isSome then [.i32] else []) ++ z) := by
  cases retBuffer with
  | none => rfl
  | some v => exact fpPlus_checks numbered v.offset

theorem struct_class (struct : ty.isStruct = true) : vclass (some ty) = some .i32 := by
  cases ty <;> simp [Ty.isStruct] at struct <;> rfl

-- Arguments, hidden pointers, the call, and the address of a returned struct.
theorem funcall_checks (numbered : Numbered c G) {returnTy funcTy : Ty} {params : List Ty} {isVariadic : Bool} {lhs : Node}
    {lhsCode : Gen Code} {args : List (Node × Gen Code)} {retBuffer : Option Obj}
    (function : funcTy = .func returnTy params isVariadic) (buffered : retBuffer.isSome = returnTy.isStruct)
    (shaped : ArgsShaped params (args.map Prod.fst))
    (sound : CallSound c G funcTy lhs (∀ code, lhsCode = .ok code → Pushes G code (vclass lhs.ty).toList) (args.map Prod.fst))
    (operands : ∀ p ∈ args, ∀ code, p.2 = .ok code → Pushes G code (vclass p.1.ty).toList)
    (made : genFuncall c (some returnTy) funcTy lhs lhsCode args retBuffer = .ok code) :
    Pushes G code (vclass (some returnTy)).toList := by
  unfold genFuncall at made
  unfold CallSound at sound
  split at made
  · rename_i name
    rw [name] at sound
    obtain ⟨dropped,first,made⟩ := bind_ok made
    obtain ⟨converted,conversion,made⟩ := bind_ok made
    cases made
    rw [List.append_assoc]
    refine checkAll_append (dropped_checks first (fun p member => sound p.1 (List.mem_map_of_mem member)) operands) ?_
    have converts := convert_checks (G := G) (z := []) conversion
    rw [List.append_nil,List.append_nil] at converts
    exact checkAll_append (u := [.i32]) rfl converts
  · rename_i name
    rw [name] at sound
    split at made
    · obtain ⟨one,first,made⟩ := bind_ok made
      obtain ⟨pages,second,made⟩ := bind_ok made
      obtain ⟨converted,conversion,made⟩ := bind_ok made
      cases made
      rename_i node gen node' gen' rest _ _
      obtain ⟨v,class_⟩ := Option.ne_none_iff_exists'.mp (sound node (by simp))
      have pushed := operands (node,gen) (List.mem_cons_self ..) one first
      rw [class_] at pushed
      have asked := genExprAs_checks second (operands (node',gen') (by simp))
      have converts := convert_checks (G := G) (z := []) conversion
      rw [List.append_nil,List.append_nil] at converts
      simp only [List.append_assoc]
      refine checkAll_append pushed (checkAll_append (u := []) rfl (checkAll_append asked ?_))
      exact checkAll_append (u := [.i32]) rfl converts
    · cases made
  · cases made
  · rename_i size grow alloca
    cases function
    split at sound
    · rename_i name
      exact absurd name size
    · rename_i name
      exact absurd name grow
    dsimp only at sound made
    obtain ⟨structs,f,known,entry⟩ := sound
    obtain ⟨ps,class_,same⟩ := Option.bind_eq_some_iff.mp known
    cases same
    obtain ⟨fixed,first,made⟩ := bind_ok made
    have start := fun z => retBuffer_checks (z := z) numbered retBuffer
    simp only [buffered] at start
    have pushed := fun z => fixed_checks (z := z) class_ first shaped structs operands
    -- the hidden pointer is pushed before the call if and only if there is no result
    have finish : checkAll G (retBufferCode c retBuffer)
        ((if returnTy.isStruct then [] else (vclass (some returnTy)).toList).reverse) = some (vclass (some returnTy)).toList := by
      rw [start]
      cases struct : returnTy.isStruct with
      | true => rw [struct_class struct]; rfl
      | false => cases vclass (some returnTy) <;> rfl
    have hidden : (if returnTy.isStruct = true then [ValueType.i32] else []).reverse =
        if returnTy.isStruct = true then [.i32] else [] := by cases returnTy.isStruct <;> rfl
    split at made
    · rename_i variadic
      subst variadic
      obtain ⟨stored,more,made⟩ := bind_ok made
      obtain ⟨target,called,made⟩ := bind_ok made
      cases made
      have calls := target_checks (z := []) called entry
      simp only [if_true,List.reverse_append,List.reverse_singleton,List.append_nil,hidden] at calls
      simp only [List.append_assoc]
      refine checkAll_append (start []) (checkAll_append (pushed _) (checkAll_append (moveSp_checks _ _) ?_))
      refine checkAll_append (variadic_checks more fun p member => operands p (List.mem_of_mem_drop member)) ?_
      rw [List.append_nil]
      exact checkAll_append rfl (checkAll_append calls (checkAll_append (moveSp_checks _ _) finish))
    · rename_i variadic
      split at made
      · cases made
      obtain ⟨target,called,made⟩ := bind_ok made
      cases made
      have calls := target_checks (z := []) called entry
      simp only [variadic,List.reverse_append,List.append_nil,hidden] at calls
      simp only [List.append_assoc]
      refine checkAll_append (start []) (checkAll_append (pushed _) ?_)
      rw [List.append_nil]
      exact checkAll_append calls finish

def cmpResult (kind : BinaryKind) (v : ValueType) : ValueType := if kind.isCmp then .i32 else v

theorem floatOp_type {kind : BinaryKind} {o : NumericOp} (float : v = .f32 ∨ v = .f64)
    (made : floatOp kind (some v == some .f64) = .ok o) : o.type = ⟨[v,v],[cmpResult kind v]⟩ := by
  rcases float with rfl | rfl <;> cases kind <;> cases made <;> rfl

theorem intOp_type {kind : BinaryKind} {u : Bool} {o : NumericOp} (integer : v = .i32 ∨ v = .i64)
    (made : intOp kind (some v == some .i64) u = .ok o) : o.type = ⟨[v,v],[cmpResult kind v]⟩ := by
  rcases integer with rfl | rfl <;> cases kind <;> cases made <;> first | rfl | (cases u <;> rfl)

theorem numeric_checks {o : NumericOp} {a b r : ValueType} (type : o.type = ⟨[a,b],[r]⟩) :
    checkAll G (op o) (b :: a :: z) = some (r :: z) := by
  refine check_plain ?_
  simp [Plain.check,Plain.type,type,FuncType.apply,popAll]

theorem numeric_unary {o : NumericOp} {a r : ValueType} (type : o.type = ⟨[a],[r]⟩) :
    checkAll G (op o) (a :: z) = some (r :: z) := by
  refine check_plain ?_
  simp [Plain.check,Plain.type,type,FuncType.apply,popAll]

theorem binary_checks {kind : BinaryKind} {ty : Option Ty} {lhs rhs : Node} {lhsCode rhsCode : Gen Code} {tl : Ty} {v : ValueType}
    (left : lhs.ty = some tl) (class_ : (if kind.isCmp then vclass lhs.ty else vclass ty) = some v)
    (matching : tl.isFlonum = true → v = .f32 ∨ v = .f64) (other : tl.isFlonum = false → v = .i32 ∨ v = .i64)
    (made : genBinary kind ty lhs rhs lhsCode rhsCode = .ok code)
    (one : ∀ code, lhsCode = .ok code → Pushes G code (vclass lhs.ty).toList)
    (two : ∀ code, rhsCode = .ok code → Pushes G code (vclass rhs.ty).toList) : Pushes G code [cmpResult kind v] := by
  obtain ⟨tl',known,made⟩ := bind_ok made
  have same := typed_ty known
  rw [left] at same
  cases same
  obtain ⟨first,codeL,made⟩ := bind_ok made
  obtain ⟨second,codeR,made⟩ := bind_ok made
  rw [class_] at codeL codeR made
  have whole : ∀ {o : NumericOp}, o.type = ⟨[v,v],[cmpResult kind v]⟩ → Pushes G (first ++ second ++ op o) [cmpResult kind v] := by
    intro o type
    rw [List.append_assoc]
    refine checkAll_append (genExprAs_checks codeL one) (checkAll_append (genExprAs_checks codeR two).above ?_)
    exact numeric_checks type
  dsimp only at made
  split at made
  · rename_i float
    obtain ⟨o,chosen,made⟩ := bind_ok made
    cases made
    exact whole (floatOp_type (matching float) chosen)
  · rename_i notFloat
    obtain ⟨o,chosen,made⟩ := bind_ok made
    cases made
    exact whole (intOp_type (other (by simpa using notFloat)) chosen)

theorem assign_checks (numbered : Numbered c G) {ty : Ty} {lhs rhs : Node} {lhsAddr rhsCode : Gen Code}
    (notArray : ty.isArray = false) (struct : ty.isStruct = true → vclass rhs.ty = some .i32)
    (made : genAssign c (some ty) lhs rhs lhsAddr rhsCode = .ok code)
    (one : ∀ code, lhsAddr = .ok code → Pushes G code [.i32])
    (two : ∀ code, rhsCode = .ok code → Pushes G code (vclass rhs.ty).toList) :
    Pushes G code (vclass (some ty)).toList := by
  unfold genAssign at made
  split at made
  · cases made
  dsimp only at made
  split at made
  · rename_i isStruct
    obtain ⟨addr,target,made⟩ := bind_ok made
    obtain ⟨value,generated,made⟩ := bind_ok made
    cases made
    have pushed := two value generated
    rw [struct isStruct] at pushed
    rw [struct_class isStruct]
    simp only [List.append_assoc]
    refine checkAll_append (one addr target) (checkAll_append (localTee_checks numbered.t32b) ?_)
    refine checkAll_append pushed.above (checkAll_append (u := [.i32,.i32,.i32]) rfl ?_)
    exact checkAll_append (u := []) rfl (localGet_checks numbered.t32b)
  · rename_i notStruct
    obtain ⟨addr,target,made⟩ := bind_ok made
    obtain ⟨value,generated,made⟩ := bind_ok made
    obtain ⟨scratch,index,made⟩ := bind_ok made
    obtain ⟨stored,store,made⟩ := bind_ok made
    cases made
    cases class_ : vclass (some ty) with
    | none => rw [class_] at index; cases index
    | some v =>
      rw [class_] at index generated
      have known := scratch_known numbered index
      simp only [List.append_assoc]
      refine checkAll_append (one addr target) (checkAll_append (genExprAs_checks generated two).above ?_)
      refine checkAll_append (localTee_checks known) ?_
      refine checkAll_append (store_checks store class_ (by simpa using notStruct) notArray) (localGet_checks known)

theorem conditional_checks {ty : Option Ty} {depth : Nat} {test yes no : Node} {testCode yesCode noCode : Gen Code}
    (value : vclass test.ty ≠ none) (made : genConditional ty depth test yes no testCode yesCode noCode = .ok code)
    (one : ∀ code, testCode = .ok code → Pushes G code (vclass test.ty).toList)
    (two : ∀ code, yesCode = .ok code → Pushes G code (vclass yes.ty).toList)
    (three : ∀ code, noCode = .ok code → Pushes G code (vclass no.ty).toList) : Pushes G code (vclass ty).toList := by
  obtain ⟨condition,tested,made⟩ := bind_ok made
  obtain ⟨_,_,made⟩ := bind_ok made
  obtain ⟨first,taken,made⟩ := bind_ok made
  obtain ⟨second,skipped,made⟩ := bind_ok made
  cases made
  have checked := check_ifElse (t := []) (genExprAs_checks taken two) (genExprAs_checks skipped three)
  rw [List.append_nil] at checked
  exact pushes_append (genCond_checks tested value one) checked

theorem loaded_checks {addr : Gen Code} {ty : Option Ty} (value : vclass ty ≠ none) (made : loaded ty addr = .ok code)
    (operand : ∀ code, addr = .ok code → Pushes G code [.i32]) : Pushes G code (vclass ty).toList := by
  obtain ⟨first,generated,made⟩ := bind_ok made
  cases ty with
  | none => cases made
  | some ty =>
    obtain ⟨fetched,load,made⟩ := bind_ok made
    cases made
    have checked := load_checks (G := G) (z := []) load value
    rw [List.append_nil] at checked
    exact pushes_append (operand first generated) checked

-- Valid code: an address is an i32, a value is one operand of its type's class.
def Valid (c : Context) (G : Typing) (n : Node) : Prop :=
  ((sides c G n).addr → ∀ depth code, genAddr c depth n = .ok code → Pushes G code [.i32]) ∧
  ((sides c G n).value → ∀ depth code, genExpr c depth n = .ok code → Pushes G code (vclass n.ty).toList)

theorem generateArgs_nodes (depth : Nat) (args : List Node) : (generateArgs c depth args).map Prod.fst = args := by
  induction args with
  | nil => rfl
  | cons a rest ih => rw [generateArgs,List.map_cons,ih]

theorem generateArgs_codes {depth : Nat} {args : List Node} {p : Node × Gen Code} (member : p ∈ generateArgs c depth args) :
    p.1 ∈ args ∧ p.2 = genExpr c depth p.1 := by
  induction args with
  | nil => cases member
  | cons a rest ih =>
    rw [generateArgs] at member
    rcases List.mem_cons.mp member with rfl | later
    · exact ⟨List.mem_cons_self ..,rfl⟩
    · obtain ⟨present,same⟩ := ih later
      exact ⟨List.mem_cons_of_mem _ present,same⟩

theorem sidesArgs_member {args : List Node} {a : Node} (sound : sidesArgs c G args) (member : a ∈ args) :
    (sides c G a).value := by
  induction args with
  | nil => cases member
  | cons b rest ih =>
    rcases List.mem_cons.mp member with rfl | later
    · exact sound.1
    · exact ih sound.2 later

theorem shapedArgs_member {args : List Node} {a : Node} (shaped : ShapedArgs args) (member : a ∈ args) : Shaped a := by
  induction args with
  | nil => cases member
  | cons b rest ih =>
    rcases List.mem_cons.mp member with rfl | later
    · exact shaped.1
    · exact ih shaped.2 later

theorem notLvalue_valid {P : Prop} {n : Node} (addr : ∀ depth, genAddr c depth n = notLvalue) :
    P → ∀ depth code, genAddr c depth n = .ok code → Pushes G code [.i32] := by
  intro _ depth code made
  rw [addr depth] at made
  cases made

theorem varAddr_checks (numbered : Numbered c G) {v : Obj} (made : genVarAddr c v = .ok code) : Pushes G code [.i32] := by
  unfold genVarAddr at made
  split at made
  · cases made
  split at made
  · cases made
    exact fpPlus_checks numbered v.offset
  split at made
  · cases made
  · obtain ⟨a,_,made⟩ := bind_ok made
    cases made
    rfl

theorem memberAddr_checks {m : Member} {lhs : Gen Code} (made : genMemberAddr m lhs = .ok code)
    (operand : ∀ code, lhs = .ok code → Pushes G code [.i32]) : Pushes G code [.i32] := by
  obtain ⟨first,generated,made⟩ := bind_ok made
  cases made
  refine pushes_append (operand first generated) ?_
  split <;> rfl

theorem neg_checks {ty : Option Ty} {lhs : Node} {gen : Gen Code} (same : lhs.ty = ty) (value : vclass ty ≠ none)
    (made : genNeg ty lhs gen = .ok code) (operand : ∀ code, gen = .ok code → Pushes G code (vclass lhs.ty).toList) :
    Pushes G code (vclass ty).toList := by
  rw [same] at operand
  unfold genNeg at made
  cases class_ : vclass ty with
  | none => exact absurd class_ value
  | some v =>
    rw [class_] at made operand
    cases v <;> obtain ⟨first,generated,made⟩ := bind_ok made <;> cases made
    case some.f32.refl => exact pushes_append (operand first generated) (numeric_unary rfl)
    case some.f64.refl => exact pushes_append (operand first generated) (numeric_unary rfl)
    all_goals
      have pushed := genExprAs_checks (G := G) generated fun code made => by rw [same,class_]; exact operand code made
      rw [List.append_assoc]
      exact checkAll_append rfl (checkAll_append pushed.above (numeric_checks rfl))

theorem bitnot_checks {ty : Option Ty} {lhs : Node} {gen : Gen Code} (same : ty = lhs.ty)
    (integer : isFloatClass (vclass ty) = false) (made : genBitnot ty lhs gen = .ok code)
    (operand : ∀ code, gen = .ok code → Pushes G code (vclass lhs.ty).toList) : Pushes G code (vclass ty).toList := by
  unfold genBitnot at made
  split at made
  · rename_i long
    obtain ⟨first,generated,made⟩ := bind_ok made
    cases made
    rw [long,List.append_assoc]
    exact checkAll_append (genExprAs_checks generated operand) (checkAll_append rfl (numeric_checks rfl))
  · rename_i short
    obtain ⟨first,generated,made⟩ := bind_ok made
    cases made
    have class_ : vclass ty = some .i32 := by
      obtain ⟨_,_,parts⟩ := bind_ok generated
      obtain ⟨_,_,parts⟩ := bind_ok parts
      obtain ⟨_,conversion,_⟩ := bind_ok parts
      rw [← same] at conversion
      cases known : vclass ty with
      | none => rw [known] at conversion; cases conversion
      | some v =>
        rw [known] at integer short
        cases v <;> first | rfl | exact absurd rfl short | cases integer
    rw [class_,List.append_assoc]
    exact checkAll_append (genExprAs_checks generated operand) (checkAll_append rfl (numeric_checks rfl))

theorem unary_valid {kind : UnaryKind} {ty : Option Ty} {lhs : Node}
    (shaped : Shaped (.unary kind ty lhs)) (operand : Valid c G lhs) : Valid c G (.unary kind ty lhs) := by
  obtain ⟨_,rule⟩ := shaped
  obtain ⟨address,value⟩ := operand
  cases kind with
  | neg =>
    refine ⟨notLvalue_valid fun _ => rfl,fun sound depth code made => ?_⟩
    exact neg_checks rule.1 rule.2 made (value sound depth)
  | not =>
    refine ⟨notLvalue_valid fun _ => rfl,fun sound depth code made => ?_⟩
    obtain ⟨test,tested,made⟩ := bind_ok made
    cases made
    cases rule
    exact pushes_append (genCond_checks tested sound.2 (value sound.1 depth)) rfl
  | bitnot =>
    refine ⟨notLvalue_valid fun _ => rfl,fun sound depth code made => ?_⟩
    exact bitnot_checks rule sound.2 made (value sound.1 depth)
  | addr =>
    refine ⟨notLvalue_valid fun _ => rfl,fun sound depth code made => ?_⟩
    dsimp only at rule
    rw [Node.ty,rule]
    exact address sound depth code made
  | deref =>
    obtain ⟨base,rfl,notVoid⟩ := rule
    refine ⟨fun sound depth code made => genExprAs_checks made (value sound depth),fun sound depth code made => ?_⟩
    refine loaded_checks ?_ made fun code made => genExprAs_checks made (value sound depth)
    show vclass (some base) ≠ none
    rw [ne_eq,class_none,notVoid]
    decide
  | cast =>
    obtain ⟨target,rfl⟩ := rule
    refine ⟨notLvalue_valid fun _ => rfl,fun sound depth code made => ?_⟩
    obtain ⟨first,generated,made⟩ := bind_ok made
    obtain ⟨converted,conversion,made⟩ := bind_ok made
    cases made
    have checked := cast_checks (G := G) (z := []) conversion sound.2
    rw [List.append_nil,List.append_nil] at checked
    exact pushes_append (value sound.1 depth first generated) checked

theorem logical_valid {ty : Option Ty} {kind : BinaryKind} {lhs rhs : Node} (logical : kind.rule = .logical)
    (type : ty = some (.int false)) (left : Valid c G lhs) (right : Valid c G rhs) : Valid c G (.binary kind ty lhs rhs) := by
  subst type
  cases kind <;> cases logical
  all_goals
    refine ⟨notLvalue_valid fun _ => rfl,fun sound depth code made => ?_⟩
    obtain ⟨one,two,valueL,valueR⟩ := sound
    obtain ⟨first,tested,made⟩ := bind_ok made
    obtain ⟨_,_,made⟩ := bind_ok made
    obtain ⟨second,chosen,made⟩ := bind_ok made
    cases made
    have condition := genCond_checks tested valueL (left.2 one depth)
    have arm := genCond_checks chosen valueR (right.2 two (depth + 1))
  · exact pushes_append condition (check_ifElse (r := some .i32) arm rfl)
  · exact pushes_append condition (check_ifElse (r := some .i32) rfl arm)

theorem operator_valid {ty : Option Ty} {kind : BinaryKind} {lhs rhs : Node}
    (plain : kind.rule = .arithmetic ∨ kind.rule = .comparison ∨ kind.rule = .shift)
    (shaped : Shaped (.binary kind ty lhs rhs)) (left : Valid c G lhs) (right : Valid c G rhs) :
    Valid c G (.binary kind ty lhs rhs) := by
  obtain ⟨_,_,rule⟩ := shaped
  have addr : ∀ depth, genAddr c depth (.binary kind ty lhs rhs) = notLvalue := by
    intro depth
    cases kind <;> simp [BinaryKind.rule] at plain <;> rfl
  have gen : ∀ depth, genExpr c depth (.binary kind ty lhs rhs) =
      genBinary kind ty lhs rhs (genExpr c depth lhs) (genExpr c depth rhs) := by
    intro depth
    cases kind <;> simp [BinaryKind.rule] at plain <;> rfl
  refine ⟨notLvalue_valid addr,fun sound depth code made => ?_⟩
  rw [gen] at made
  obtain ⟨tl,known,_⟩ := bind_ok made
  have type := typed_ty known
  obtain ⟨one,two⟩ : (sides c G lhs).value ∧ (sides c G rhs).value := by
    cases kind <;> simp [BinaryKind.rule] at plain <;> first | exact sound | exact ⟨sound.1,sound.2.1⟩
  have checks := fun v class_ matching other =>
    binary_checks (v := v) type class_ matching other made (left.2 one depth) (right.2 two depth)
  have cmp : kind.isCmp = true ↔ kind.rule = .comparison := by cases kind <;> simp [BinaryKind.isCmp,BinaryKind.rule]
  have ofLeft : ∀ {v : ValueType}, vclass (some tl) = some v →
      (tl.isFlonum = true → v = .f32 ∨ v = .f64) ∧ (tl.isFlonum = false → v = .i32 ∨ v = .i64) := by
    intro v class_
    constructor
    · intro float
      simpa [class_] using class_float float
    · intro notFloat
      simpa [class_] using class_integer notFloat (by simp [class_])
  rcases plain with arithmetic | comparison | shift
  · rw [arithmetic] at rule
    obtain ⟨value,operands⟩ := rule
    obtain ⟨v,class_⟩ := Option.ne_none_iff_exists'.mp value
    have notCmp : kind.isCmp = false := by simpa [arithmetic] using cmp.not
    have kept : cmpResult kind v = v := by simp [cmpResult,notCmp]
    show Pushes G code (vclass ty).toList
    rw [class_]
    rw [← kept]
    rcases operands with ⟨_,pointer,notFloat⟩ | ⟨same,_⟩
    · rw [class_] at pointer
      cases pointer
      rw [type] at notFloat
      refine checks _ (by simp [notCmp,class_]) (fun float => ?_) fun _ => .inl rfl
      rw [show tl.isFlonum = false from notFloat] at float
      cases float
    · rw [← same,type] at class_
      exact checks v (by simp [notCmp,← same,type,class_]) (ofLeft class_).1 (ofLeft class_).2
  · rw [comparison] at rule
    obtain ⟨_,value,rfl⟩ := rule
    obtain ⟨v,class_⟩ := Option.ne_none_iff_exists'.mp value
    have isCmp := cmp.mpr comparison
    have result : cmpResult kind v = .i32 := by simp [cmpResult,isCmp]
    rw [type] at class_
    show Pushes G code [.i32]
    rw [← result]
    exact checks v (by simp [isCmp,type,class_]) (ofLeft class_).1 (ofLeft class_).2
  · rw [shift] at rule
    have value : vclass ty ≠ none := by cases kind <;> cases shift <;> exact sound.2.2
    obtain ⟨v,class_⟩ := Option.ne_none_iff_exists'.mp value
    have notCmp : kind.isCmp = false := by simpa [shift] using cmp.not
    have kept : cmpResult kind v = v := by simp [cmpResult,notCmp]
    show Pushes G code (vclass ty).toList
    rw [class_]
    rw [← kept]
    have same : vclass (some tl) = some v := by rw [← type,← show ty = lhs.ty from rule,class_]
    exact checks v (by simp [notCmp,class_]) (ofLeft same).1 (ofLeft same).2

-- A call is sound for what the soundness of the called expression yields.
theorem callSound_mono {funcTy : Ty} {lhs : Node} {P Q : Prop} {args : List Node} (weaker : P → Q)
    (sound : CallSound c G funcTy lhs P args) : CallSound c G funcTy lhs Q args := by
  unfold CallSound at sound ⊢
  split <;> rename_i name
  · rwa [name] at sound
  · rwa [name] at sound
  · rename_i size
    split at sound
    · rename_i wrong
      exact absurd wrong size
    · rename_i wrong
      exact absurd wrong name
    split at sound
    · obtain ⟨structs,f,known,entry⟩ := sound
      refine ⟨structs,f,known,?_⟩
      cases target : callee lhs with
      | none => rw [target] at entry; exact ⟨weaker entry.1,entry.2⟩
      | some fn => rw [target] at entry; exact entry
    · trivial

theorem generated_valid (numbered : Numbered c G) (n : Node) (shaped : Shaped n) : Valid c G n := by
  induction n with
  | nullExpr => exact ⟨notLvalue_valid fun _ => rfl,fun _ _ _ made => by cases made; rfl⟩
  | num ty number =>
    refine ⟨notLvalue_valid fun _ => rfl,fun _ _ _ made => ?_⟩
    cases made
    have value : vclass ty ≠ none := shaped
    unfold genNum
    show Pushes _ _ (vclass ty).toList
    generalize vclass ty = vc at value ⊢
    cases vc with
    | none => exact absurd rfl value
    | some v => cases v <;> rfl
  | var ty v =>
    refine ⟨fun _ _ _ made => varAddr_checks numbered made,fun sound _ _ made => ?_⟩
    exact loaded_checks sound made fun _ made => varAddr_checks numbered made
  | memzero v =>
    refine ⟨notLvalue_valid fun _ => rfl,fun _ _ _ made => ?_⟩
    cases made
    simp only [List.append_assoc]
    exact checkAll_append (fpPlus_checks numbered v.offset) rfl
  | unary kind ty lhs ih =>
    have inner : Shaped lhs := shaped.1
    exact unary_valid shaped (ih inner)
  | binary kind ty lhs rhs ihl ihr =>
    have parts := shaped
    obtain ⟨innerL,innerR,rule⟩ := parts
    have left := ihl innerL
    have right := ihr innerR
    cases class_ : kind.rule with
    | arithmetic => exact operator_valid (.inl class_) shaped left right
    | comparison => exact operator_valid (.inr (.inl class_)) shaped left right
    | shift => exact operator_valid (.inr (.inr class_)) shaped left right
    | logical =>
      rw [class_] at rule
      exact logical_valid class_ rule left right
    | comma =>
      rw [class_] at rule
      dsimp only at rule
      subst rule
      cases kind <;> cases class_
      refine ⟨fun sound depth code made => ?_,fun sound depth code made => ?_⟩
      · obtain ⟨first,generated,made⟩ := bind_ok made
        obtain ⟨second,address,made⟩ := bind_ok made
        cases made
        exact checkAll_append (droppedValue_checks (left.2 sound.1 depth first generated))
          (right.1 sound.2 depth second address)
      · obtain ⟨first,generated,made⟩ := bind_ok made
        obtain ⟨second,value,made⟩ := bind_ok made
        cases made
        exact checkAll_append (droppedValue_checks (left.2 sound.1 depth first generated))
          (right.2 sound.2 depth second value)
    | assign =>
      rw [class_] at rule
      obtain ⟨same,notArray,_⟩ := rule
      cases kind <;> cases class_
      have value : (sides c G (.binary .assign ty lhs rhs)).value → ∀ depth code,
          genExpr c depth (.binary .assign ty lhs rhs) = .ok code → Pushes G code (vclass ty).toList := by
        rintro ⟨target,source,struct⟩ depth code made
        cases ty with
        | none =>
          have refused : genAssign c none lhs rhs (genAddr c depth lhs) (genExpr c depth rhs) = .ok code := made
          unfold genAssign at refused
          split at refused <;> cases refused
        | some ty => exact assign_checks numbered notArray struct made (left.1 target depth) (right.2 source depth)
      refine ⟨fun sound depth code made => ?_,value⟩
      cases struct : (ty.map Ty.isStruct).getD false with
      | false =>
        have refused : (if (ty.map Ty.isStruct).getD false = true then _ else notLvalue) = Except.ok code := made
        rw [struct] at refused
        cases refused
      | true =>
        have kept : (if (ty.map Ty.isStruct).getD false = true then _ else notLvalue) = Except.ok code := made
        rw [struct,if_pos rfl] at kept
        have pushed := value sound depth code kept
        cases ty with
        | none => cases struct
        | some ty => rwa [struct_class struct] at pushed
  | member ty m lhs ih =>
    have operand := ih shaped.1
    refine ⟨fun sound depth code made => memberAddr_checks made (operand.1 sound depth),fun sound depth code made => ?_⟩
    have made : (if m.isBitfield then _ else _) = Except.ok code := made
    split at made
    · cases made
    · exact loaded_checks sound.2 made fun code made => memberAddr_checks made (operand.1 sound.1 depth)
  | cond ty test yes no ihc ihy ihn =>
    obtain ⟨innerC,innerY,innerN,_⟩ := shaped
    have value : (sides c G (.cond ty test yes no)).value → ∀ depth code,
        genExpr c depth (.cond ty test yes no) = .ok code → Pushes G code (vclass ty).toList := by
      rintro ⟨soundC,soundY,soundN,tested⟩ depth code made
      exact conditional_checks tested made ((ihc innerC).2 soundC depth) ((ihy innerY).2 soundY (depth + 1))
        ((ihn innerN).2 soundN (depth + 1))
    refine ⟨fun sound depth code made => ?_,value⟩
    have kept : (if (ty.map Ty.isStruct).getD false = true then _ else notLvalue) = Except.ok code := made
    split at kept
    · rename_i struct
      have pushed := value sound depth code kept
      cases ty with
      | none => cases struct
      | some ty => rwa [struct_class struct] at pushed
    · cases kept
  | funcall ty funcTy lhs args retBuffer ih ihs =>
    obtain ⟨innerF,innerA,returnTy,params,isVariadic,function,rfl,buffered,converted⟩ := shaped
    have value : (sides c G (.funcall (some returnTy) funcTy lhs args retBuffer)).value → ∀ depth code,
        genExpr c depth (.funcall (some returnTy) funcTy lhs args retBuffer) = .ok code →
          Pushes G code (vclass (some returnTy)).toList := by
      rintro ⟨soundA,soundF⟩ depth code made
      refine funcall_checks numbered function buffered ?_ ?_ ?_ made
      · rw [generateArgs_nodes]
        exact converted
      · rw [generateArgs_nodes]
        exact callSound_mono (fun sound code made => (ih innerF).2 sound depth code made) soundF
      · intro p member code made
        obtain ⟨present,same⟩ := generateArgs_codes member
        rw [same] at made
        exact (ihs p.1 present (shapedArgs_member innerA present)).2 (sidesArgs_member soundA present) depth code made
    refine ⟨fun sound depth code made => ?_,value⟩
    have kept : (if retBuffer.isSome then _ else notLvalue) = Except.ok code := made
    split at kept
    · rename_i struct
      have pushed := value sound depth code kept
      rwa [struct_class (buffered.symm.trans struct)] at pushed
    · cases kept
  | unsupported ty => exact ⟨notLvalue_valid fun _ => rfl,fun _ _ _ made => by cases made⟩

theorem typed_valid (numbered : Numbered c G) (built : Built n) (typed : addType ilp32 n = .ok n') : Valid c G n' :=
  generated_valid numbered n' (addType_shaped built typed)

end

end SandboxStack.Cc
