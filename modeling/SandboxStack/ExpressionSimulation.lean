import SandboxStack.ExpressionRules
import SandboxStack.GeneratedCode

namespace SandboxStack.Cc
open Wasm LinearMemory

-- What generated code carries out.
def Yields (M : Machine) (c : Context) (fp : U32) (Own : Assigned → List Assigned → Prop) {α : Type} (pre : List Value)
    (gen : Gen Code) (m : Comp α) (post : α → List Value) : Prop :=
  ∀ code,gen = .ok code → Performs M c fp Own pre code m post

section
variable {M : Machine} {c : Context} {fp : U32} {Own : Assigned → List Assigned → Prop} {n lhs rhs : Node} {ty : Option Ty}
  {gen lhsGen rhsGen : Gen Code} {m left right : Comp (Option Value)} {target : Comp U32}

-- ---- operands ----

theorem const_computes {v : Int} : Computes M c fp (i32c v) [] [.i32 (BitVec.ofInt 32 v)] := by
  intro s below stack _
  subst stack
  rfl

theorem plus_computes {p : Prop} [Decidable p] {a : U32} {v : Int} (zero : ¬p → v = 0) :
    Computes M c fp (if p then i32c v ++ op (.i32 .add) else []) [.i32 a] [.i32 (a + BitVec.ofInt 32 v)] := by
  intro s below stack _
  split
  · obtain ⟨_,locals,sp,memory⟩ := s
    subst stack
    rfl
  · rename_i absent
    have same : a + BitVec.ofInt 32 v = a := by rw [zero absent]; simp
    rw [same,← stack]
    rfl

theorem fpPlus_computes (v : Int) : Computes M c fp (fpPlus c v) [] [.i32 (fp + BitVec.ofInt 32 v)] := by
  have base : Computes M c fp (localGet c.fp) [] [.i32 fp] := by
    intro s below stack frame
    obtain ⟨_,locals,sp,memory⟩ := s
    subst stack
    exact congrArg (fun base => Except.ok (State.mk (base :: _) locals sp memory)) frame
  exact computes_append base (plus_computes not_not.mp)

theorem genNum_computes (n : Number) : Computes M c fp (genNum ty n) [] [literalValue ty n] := by
  intro s below stack _
  obtain ⟨_,locals,sp,memory⟩ := s
  subst stack
  unfold genNum literalValue
  generalize vclass ty = vc
  rcases vc with _ | v
  · rfl
  · cases v <;> rfl

theorem drop_computes (v : Value) : Computes M c fp drop [v] [] := by
  intro s below stack _
  obtain ⟨_,locals,sp,memory⟩ := s
  subst stack
  rfl

theorem as_yields (calls : CallsLocal M) {vc : Option ValueType} (value : Yields M c fp Own [] gen m Option.toList) :
    Yields M c fp Own [] (genExprAs n gen vc) (valueAs M n m vc) Option.toList := by
  intro code made
  obtain ⟨ty,typed,made⟩ := bind_ok made
  obtain ⟨first,one,made⟩ := bind_ok made
  obtain ⟨converted,conversion,made⟩ := bind_ok made
  cases made
  unfold valueAs
  rw [typed_ty typed] at conversion ⊢
  apply performs_bind (value first one)
  exact fun v => performs_operator calls conversion (convert_bare conversion)

theorem cond_yields (calls : CallsLocal M) (value : Yields M c fp Own [] gen m Option.toList) :
    Yields M c fp Own [] (genCond n gen) (tested M n m) fun b => [.i32 b] := by
  intro code made
  obtain ⟨first,one,made⟩ := bind_ok made
  cases made
  apply performs_bind (value first one)
  intro v
  exact performs_after (performs_operator calls rfl (toBool_bare _)) fun truth => performs_address

theorem loaded_yields (calls : CallsLocal M) (addr : Yields M c fp Own [] gen target fun a => [.i32 a]) :
    Yields M c fp Own [] (loaded ty gen) (target >>= fun a => fetchedAt M ty a) Option.toList := by
  intro code made
  obtain ⟨first,one,made⟩ := bind_ok made
  cases ty with
  | none => cases made
  | some ty =>
    obtain ⟨read,load,made⟩ := bind_ok made
    cases made
    apply performs_bind (addr first one)
    exact fun a => performs_operator calls load (load_bare load)

theorem denoted_yields (value : Yields M c fp Own [] gen m Option.toList) :
    Yields M c fp Own [] gen (m >>= fun v => Comp.address v) fun a => [.i32 a] :=
  fun code made => performs_after (value code made) fun _ => performs_address

theorem notLvalue_yields {α : Type} {pre : List Value} {m : Comp α} {post : α → List Value} :
    Yields M c fp Own pre notLvalue m post := fun _ made => nomatch made

theorem optional_yields {α : Type} {pre : List Value} {m : Comp α} {post : α → List Value} {p : Prop} [Decidable p]
    (value : Yields M c fp Own pre gen m post) : Yields M c fp Own pre (if p then gen else notLvalue) m post := by
  split
  · exact value
  · exact notLvalue_yields

-- ---- nodes ----

theorem varAddr_yields (v : Obj) : Yields M c fp Own [] (genVarAddr c v) (varAt c fp v) fun a => [.i32 a] := by
  intro code made
  unfold genVarAddr at made
  unfold varAt
  split at made
  · cases made
  split at made
  · rename_i isLocal
    cases made
    rw [if_pos isLocal]
    exact performs_silent (fpPlus_computes v.offset)
  split at made
  · cases made
  · rename_i isGlobal _
    obtain ⟨a,address,made⟩ := bind_ok made
    cases made
    rw [if_neg isGlobal,address]
    exact performs_silent const_computes

theorem neg_yields (calls : CallsLocal M) (value : Yields M c fp Own [] gen m Option.toList) :
    Yields M c fp Own [] (genNeg ty lhs gen) (negated M ty lhs m) Option.toList := by
  intro code made
  unfold genNeg at made
  unfold negated
  generalize vclass ty = vc at made ⊢
  rcases vc with _ | _ | _ | _ | _
  case some.f32 | some.f64 =>
    obtain ⟨first,one,made⟩ := bind_ok made
    cases made
    apply performs_bind (value first one)
    exact fun v => performs_operator calls rfl rfl
  case some.i64 =>
    obtain ⟨first,one,made⟩ := bind_ok made
    cases made
    have zero : Computes M c fp (i64c 0) [] [.i64 0] := by
      intro s below stack _
      subst stack
      rfl
    rw [List.append_assoc]
    apply performs_computed zero
    apply performs_bind (performs_frame [.i64 0] (as_yields calls value first one))
    exact fun v => performs_operator calls rfl rfl
  case none | some.i32 =>
    obtain ⟨first,one,made⟩ := bind_ok made
    cases made
    rw [List.append_assoc]
    apply performs_computed const_computes
    apply performs_bind (performs_frame [.i32 0] (as_yields calls value first one))
    exact fun v => performs_operator calls rfl rfl

theorem bitnot_yields (calls : CallsLocal M) (value : Yields M c fp Own [] gen m Option.toList) :
    Yields M c fp Own [] (genBitnot ty lhs gen) (complemented M ty lhs m) Option.toList := by
  intro code made
  unfold genBitnot at made
  unfold complemented
  split at made
  all_goals
    rename_i wide
    obtain ⟨first,one,made⟩ := bind_ok made
    cases made
    rw [List.append_assoc]
  · rw [if_pos wide]
    apply performs_bind (as_yields calls value first one)
    exact fun v => performs_operator calls rfl rfl
  · rw [if_neg wide]
    apply performs_bind (as_yields calls value first one)
    exact fun v => performs_operator calls rfl rfl

theorem binary_yields (calls : CallsLocal M) {kind : BinaryKind} (one : Yields M c fp Own [] lhsGen left Option.toList)
    (two : Yields M c fp Own [] rhsGen right Option.toList) :
    Yields M c fp Own [] (genBinary kind ty lhs rhs lhsGen rhsGen) (combined M kind ty lhs rhs left right) Option.toList := by
  intro code made
  obtain ⟨lhsTy,typed,made⟩ := bind_ok made
  obtain ⟨first,former,made⟩ := bind_ok made
  obtain ⟨second,latter,made⟩ := bind_ok made
  dsimp only at made
  unfold combined
  rw [typed_ty typed]
  dsimp only
  rw [typed_ty typed] at former latter made
  have chosen : ∃ o,binaryOp kind lhsTy (if kind.isCmp then vclass (some lhsTy) else vclass ty) = .ok o ∧
      code = first ++ second ++ op o := by
    unfold binaryOp
    split at made
    all_goals
      rename_i flonum
      obtain ⟨o,operation,made⟩ := bind_ok made
      cases made
      refine ⟨o,?_,rfl⟩
    · rw [if_pos flonum]
      exact operation
    · rw [if_neg flonum]
      exact operation
  obtain ⟨o,operation,rfl⟩ := chosen
  rw [List.append_assoc]
  apply performs_bind (as_yields calls one first former)
  intro x
  apply performs_bind (performs_frame x.toList (as_yields calls two second latter))
  intro y
  rw [operation]
  exact performs_operator calls rfl rfl

theorem member_yields (k : Member) (addr : Yields M c fp Own [] gen target fun a => [.i32 a]) :
    Yields M c fp Own [] (genMemberAddr k gen) (target >>= fun a => pure (a + BitVec.ofInt 32 k.offset)) fun a => [.i32 a] := by
  intro code made
  obtain ⟨first,one,made⟩ := bind_ok made
  cases made
  apply performs_bind (addr first one)
  intro a
  apply performs_silent
  apply plus_computes
  intro absent
  rw [not_not.mp absent]
  rfl

-- The value of the left side is dropped, if it has one.
theorem comma_yields {α : Type} {post : α → List Value} {m : Comp α} (value : Yields M c fp Own [] lhsGen left Option.toList)
    (after : Yields M c fp Own [] gen m post) :
    Yields M c fp Own [] (do return droppedValue lhs (← lhsGen) ++ (← gen))
      ((left >>= fun v => unused lhs.ty v) >>= fun _ => m) post := by
  intro code made
  obtain ⟨first,one,made⟩ := bind_ok made
  obtain ⟨second,two,made⟩ := bind_ok made
  cases made
  have dropped : Performs M c fp Own [] (droppedValue lhs first) (left >>= fun v => unused lhs.ty v) fun _ => [] := by
    unfold droppedValue
    cases class_ : vclass lhs.ty with
    | none =>
      apply performs_after (value first one)
      intro v
      unfold unused
      rw [class_]
      cases v with
      | none => exact performs_pure rfl
      | some v => exact performs_stop
    | some vc =>
      apply performs_bind (value first one)
      intro v
      unfold unused
      rw [class_]
      cases v with
      | none => exact performs_stop
      | some v => exact performs_silent (drop_computes v)
  exact performs_bind dropped fun _ => after second two

theorem scalar_yields (calls : CallsLocal M) {ty : Ty} (scalar : ty.isStruct = false)
    (addr : Yields M c fp Own [] lhsGen target fun a => [.i32 a]) (value : Yields M c fp Own [] rhsGen right Option.toList) :
    Yields M c fp Own [] (genAssign c (some ty) lhs rhs lhsGen rhsGen) (assigned M (some ty) lhs rhs target right) Option.toList := by
  intro code made
  unfold genAssign at made
  split at made
  · cases made
  dsimp only at made
  rw [scalar] at made
  obtain ⟨first,one,made⟩ := bind_ok made
  obtain ⟨second,two,made⟩ := bind_ok made
  obtain ⟨scratch,three,made⟩ := bind_ok made
  obtain ⟨stored,four,made⟩ := bind_ok made
  cases made
  unfold assigned
  dsimp only
  rw [scalar]
  simp only [List.append_assoc]
  apply performs_bind (addr first one)
  intro a
  apply performs_bind (performs_frame [.i32 a] (as_yields calls value second two))
  intro v
  cases v with
  | none => exact performs_stop
  | some v =>
    rw [← List.append_assoc]
    apply performs_after (performs_saved calls (scratch_ordinary three) four (store_bare four))
    intro left
    cases left with
    | nil => exact performs_pure rfl
    | cons => exact performs_stop

theorem conditional_yields (calls : CallsLocal M) (depth : Nat) (test yes no : Node) {testGen yesGen noGen : Gen Code}
    {chosen first second : Comp (Option Value)}
    (condition : Yields M c fp Own [] testGen chosen Option.toList) (taken : Yields M c fp Own [] yesGen first Option.toList)
    (skipped : Yields M c fp Own [] noGen second Option.toList) :
    Yields M c fp Own [] (genConditional ty depth test yes no testGen yesGen noGen)
      (tested M test chosen >>= fun b => if b ≠ 0 then valueAs M yes first (vclass ty) else valueAs M no second (vclass ty))
      Option.toList := by
  intro code made
  obtain ⟨start,one,made⟩ := bind_ok made
  obtain ⟨_,_,made⟩ := bind_ok made
  obtain ⟨arm,two,made⟩ := bind_ok made
  obtain ⟨other,three,made⟩ := bind_ok made
  cases made
  apply performs_bind (cond_yields calls condition start one)
  exact fun b => performs_branch (as_yields calls taken arm two) (as_yields calls skipped other three)

theorem logand_yields (calls : CallsLocal M) {depth : Nat} (first : Yields M c fp Own [] lhsGen left Option.toList)
    (second : Yields M c fp Own [] rhsGen right Option.toList) :
    Yields M c fp Own []
      (do
        let left ← genCond lhs lhsGen
        pushCtl depth
        let right ← genCond rhs rhsGen
        return left ++ [.ifElse (some .i32) right (i32c 0)])
      (do
        let a ← tested M lhs left
        if a ≠ 0 then do
          let b ← tested M rhs right
          return some (.i32 b)
        else return some (.i32 0)) Option.toList := by
  intro code made
  obtain ⟨one,former,made⟩ := bind_ok made
  obtain ⟨_,_,made⟩ := bind_ok made
  obtain ⟨two,latter,made⟩ := bind_ok made
  cases made
  apply performs_bind (cond_yields calls first one former)
  intro a
  apply performs_branch
  · exact performs_map (cond_yields calls second two latter) fun b => rfl
  · exact performs_silent const_computes

theorem logor_yields (calls : CallsLocal M) {depth : Nat} (first : Yields M c fp Own [] lhsGen left Option.toList)
    (second : Yields M c fp Own [] rhsGen right Option.toList) :
    Yields M c fp Own []
      (do
        let left ← genCond lhs lhsGen
        pushCtl depth
        let right ← genCond rhs rhsGen
        return left ++ [.ifElse (some .i32) (i32c 1) right])
      (do
        let a ← tested M lhs left
        if a ≠ 0 then return some (.i32 1)
        else do
          let b ← tested M rhs right
          return some (.i32 b)) Option.toList := by
  intro code made
  obtain ⟨one,former,made⟩ := bind_ok made
  obtain ⟨_,_,made⟩ := bind_ok made
  obtain ⟨two,latter,made⟩ := bind_ok made
  cases made
  apply performs_bind (cond_yields calls first one former)
  intro a
  apply performs_branch
  · exact performs_silent const_computes
  · exact performs_map (cond_yields calls second two latter) fun b => rfl

-- ---- calls ----

theorem fixed_yields {args : List Node} {g : Node → Gen Code} {value : Node → Comp (Option Value)}
    (all : ∀ a ∈ args,Yields M c fp Own [] (g a) (value a) Option.toList) (k : Nat) :
    Yields M c fp Own [] (genFixed k (args.map fun a => (a,g a))) (fixedValues k (args.map fun a => (a,value a))) fun vs => vs := by
  induction k generalizing args with
  | zero =>
    intro code made
    cases made
    exact performs_pure rfl
  | succ k ih =>
    intro code made
    cases args with
    | nil => cases made
    | cons a args =>
      obtain ⟨first,one,made⟩ := bind_ok made
      obtain ⟨rest,two,made⟩ := bind_ok made
      cases made
      apply performs_bind (all a (.head _) first one)
      intro v
      exact performs_map (performs_frame v.toList (ih (fun b member => all b (.tail _ member)) rest two)) fun more => rfl

theorem dropped_yields {args : List Node} {g : Node → Gen Code} {value : Node → Comp (Option Value)}
    (all : ∀ a ∈ args,Yields M c fp Own [] (g a) (value a) Option.toList) :
    Yields M c fp Own [] (genDropped (args.map fun a => (a,g a))) (unusedValues (args.map fun a => (a,value a))) fun _ => [] := by
  induction args with
  | nil =>
    intro code made
    cases made
    exact performs_pure rfl
  | cons a args ih =>
    intro code made
    obtain ⟨first,one,made⟩ := bind_ok made
    obtain ⟨rest,two,made⟩ := bind_ok made
    cases made
    rw [List.append_assoc]
    apply performs_bind (all a (.head _) first one)
    intro v
    cases v with
    | none => exact performs_stop
    | some v => exact performs_computed (drop_computes v) (ih (fun b member => all b (.tail _ member)) rest two)

theorem stored_yields (calls : CallsLocal M) {args : List Node} {g : Node → Gen Code} {value : Node → Comp (Option Value)}
    (all : ∀ a ∈ args,Yields M c fp Own [] (g a) (value a) Option.toList) (slot : Nat) :
    Yields M c fp Own [] (genVariadic slot (args.map fun a => (a,g a))) (storedValues M slot (args.map fun a => (a,value a)))
      fun _ => [] := by
  induction args generalizing slot with
  | nil =>
    intro code made
    cases made
    exact performs_pure rfl
  | cons a args ih =>
    intro code made
    obtain ⟨ty,_,made⟩ := bind_ok made
    dsimp only at made
    split at made
    · cases made
    obtain ⟨first,one,made⟩ := bind_ok made
    have parts : ∃ stored rest,variadicStore (vclass a.ty) = .ok stored ∧ stored.all Instr.bare = true ∧
        genVariadic (slot + 1) (args.map fun a => (a,g a)) = .ok rest ∧
        code = [.plain .globalGet] ++ (if slot ≠ 0 then i32c (slot * 8) ++ op (.i32 .add) else []) ++ first ++ stored ++ rest := by
      unfold variadicStore
      generalize vclass a.ty = vc at made ⊢
      rcases vc with _ | _ | _ | _ | _
      case none => cases made
      all_goals
        obtain ⟨stored,two,made⟩ := bind_ok made
        obtain ⟨rest,three,made⟩ := bind_ok made
        cases two
        cases made
        exact ⟨_,rest,rfl,rfl,three,rfl⟩
    obtain ⟨stored,rest,store,bare,three,rfl⟩ := parts
    simp only [List.append_assoc]
    apply performs_bind performs_world
    intro w
    apply performs_computed
    · apply plus_computes
      intro absent
      rw [not_not.mp absent]
      rfl
    apply performs_bind (performs_frame _ (all a (.head _) first one))
    intro v
    apply performs_bind (performs_operate calls store bare)
    intro left
    cases left with
    | nil => exact ih (fun b member => all b (.tail _ member)) (slot + 1) rest three
    | cons => exact performs_stop

theorem target_yields (calls : CallsLocal M) {funcTy : Ty} {operands : List Value} (value : Yields M c fp Own [] gen m Option.toList) :
    Yields M c fp Own operands (genTarget c funcTy lhs gen) (invoked M c funcTy lhs m operands) fun results => results := by
  intro code made
  unfold genTarget at made
  unfold invoked
  cases known : callee lhs with
  | some fn =>
    rw [known] at made
    obtain ⟨i,index,made⟩ := bind_ok made
    cases made
    apply performs_operate calls ?_ rfl
    rw [index]
    rfl
  | none =>
    rw [known] at made
    obtain ⟨first,one,made⟩ := bind_ok made
    cases made
    apply performs_bind (performs_frame operands (as_yields calls value first one))
    exact fun f => performs_operate calls rfl rfl

theorem retBuffer_computes (v : Option Obj) :
    Computes M c fp (retBufferCode c v) [] (v.map fun v => Value.i32 (fp + BitVec.ofInt 32 v.offset)).toList := by
  cases v with
  | none => exact computes_nothing
  | some v => exact fpPlus_computes v.offset

theorem lowered_run (size : Nat) (s : State) :
    execAll M (moveSp .sub size) s = .ok {s with sp := s.sp + -BitVec.ofInt 32 size} := by
  unfold moveSp
  split
  · rw [← BitVec.sub_eq_add_neg]
    rfl
  · rename_i none
    rw [not_not.mp none]
    simp

theorem raised_run (size : Nat) (s : State) :
    execAll M (moveSp .add size) s = .ok {s with sp := s.sp + BitVec.ofInt 32 size} := by
  unfold moveSp
  split
  · rfl
  · rename_i none
    rw [not_not.mp none]
    simp

theorem funcall_yields (calls : CallsLocal M) {funcTy : Ty} {args : List Node} {g : Node → Gen Code}
    {value : Node → Comp (Option Value)} {retBuffer : Option Obj} (pointer : Yields M c fp Own [] gen m Option.toList)
    (all : ∀ a ∈ args,Yields M c fp Own [] (g a) (value a) Option.toList) :
    Yields M c fp Own [] (genFuncall c ty funcTy lhs gen (args.map fun a => (a,g a)) retBuffer)
      (called M c fp ty funcTy lhs m (args.map fun a => (a,value a)) retBuffer) Option.toList := by
  intro code made
  rcases funcall_parts made with ⟨name,dropped,converted,one,conversion,rfl⟩ |
    ⟨name,a,b,rest,first,pages,converted,pair,one,two,conversion,rfl⟩ |
    ⟨notSize,notGrow,notAlloca,returnTy,params,isVariadic,fixed,target,rfl,one,three,kinds⟩
  · unfold called
    rw [name]
    apply performs_bind (dropped_yields all dropped one)
    intro _
    have bare := convert_bare conversion
    refine performs_operator calls ?_ ?_
    · rw [conversion]
      rfl
    · exact bare
  · unfold called
    rw [name]
    obtain ⟨a,others,rfl,rfl,more⟩ := List.map_eq_cons_iff.mp pair
    obtain ⟨b,others,rfl,rfl,_⟩ := List.map_eq_cons_iff.mp more
    apply performs_bind (all a (.head _) first one)
    intro v
    cases v with
    | none => exact performs_stop
    | some v =>
      apply performs_computed (drop_computes v)
      apply performs_bind (as_yields calls (all b (.tail _ (.head _))) pages two)
      intro n
      have bare := convert_bare conversion
      refine performs_operator calls ?_ ?_
      · rw [conversion]
        rfl
      · exact bare
  · have returned : ∀ results,Performs M c fp Own results (retBufferCode c retBuffer)
        (Comp.single ((retBuffer.map fun v => Value.i32 (fp + BitVec.ofInt 32 v.offset)).toList ++ results)) Option.toList := by
      intro results
      rw [← List.append_nil (retBufferCode c retBuffer)]
      exact performs_computed (computes_frame results (retBuffer_computes retBuffer)) performs_single
    unfold called
    split
    · exact absurd ‹_› notSize
    · exact absurd ‹_› notGrow
    · exact absurd ‹_› notAlloca
    dsimp only
    rcases kinds with ⟨rfl,stored,size,two,sized,rfl⟩ | ⟨rfl,rfl⟩
    · rw [← List.map_drop] at two sized
      rw [List.length_map] at sized
      subst sized
      simp only [← List.map_drop,List.length_map]
      apply performs_computed (retBuffer_computes retBuffer)
      apply performs_bind (performs_frame _ (fixed_yields all params.length fixed one))
      intro values
      apply performs_bind (performs_moveSp (lowered_run _))
      intro _
      have later : ∀ a ∈ args.drop params.length,_ := fun a member => all a (List.mem_of_mem_drop member)
      apply performs_bind (performs_frame _ (stored_yields calls later 0 stored two))
      intro _
      apply performs_bind performs_world
      intro w
      apply performs_bind (target_yields calls pointer target three)
      intro results
      apply performs_bind (performs_moveSp (raised_run _))
      exact fun _ => returned results
    · apply performs_computed (retBuffer_computes retBuffer)
      apply performs_bind (performs_frame _ (fixed_yields all params.length fixed one))
      intro values
      apply performs_bind (target_yields calls pointer target three)
      exact returned

-- ---- struct assignments ----

theorem latest_last {t : List Assigned} {v : Value} : latest t v = ((t.map Assigned.target).getLast?.map Value.i32).getD v := by
  induction t generalizing v with
  | nil => rfl
  | cons e rest ih =>
    rw [List.map_cons,List.getLast?_cons]
    refine ih.trans ?_
    cases (rest.map Assigned.target).getLast? <;> rfl

theorem undisturbed_iff {e : Assigned} {t : List Assigned} (during : e.during = t.map Assigned.target) :
    Undisturbed e ↔ latest t (.i32 e.target) = .i32 e.target := by
  rw [latest_last,← during]
  unfold Undisturbed
  cases e.during.getLast? <;> simp

-- A struct assignment that was evaluated, its sides from left to right, and the
-- assignments its evaluation is made of.
structure Begun (M : Machine) (c : Context) (fp : U32) (e : Assigned) (own : List Assigned) : Prop where
  generated : ∃ depth code,genExpr c depth e.node = .ok code
  struct : e.ty.isStruct = true
  evaluated : ∃ w b t₁ t₂,(evaluate M c fp e.lhs).addr e.start = .ok (e.target,w,t₁) ∧
    (evaluate M c fp e.rhs).value w = .ok (some (.i32 b),e.after,t₂) ∧
    CopyFits e.after.memory (e.ty.size ilp32) b e.target ∧ e.value = e.after.memory.read b.toNat (e.ty.size ilp32) ∧
    e.during = t₂.map Assigned.target ∧ own = t₁ ++ e :: t₂

-- The scratch local is set between the sides and read at the end.
theorem assigned_run {size : Nat} {addr value : Code} {w w₁ w₂ : World} {a b : U32} {t₁ t₂ : List Assigned} {s : State}
    (first : Performs M c fp Own [] addr target fun a => [.i32 a]) (second : Performs M c fp Own [] value right Option.toList)
    (one : target w = .ok (a,w₁,t₁)) (two : right w₁ = .ok (some (.i32 b),w₂,t₂)) (early : Calm t₁) (late : Calm t₂)
    (copies : CopyFits w₂.memory size b a) (reflects : Reflects c fp w s) :
    ∃ s',execAll M (addr ++ localTee c.t32b ++ value ++ i32c size ++ [.plain .memoryCopy] ++ localGet c.t32b) s = .ok s' ∧
      s'.stack = latest t₂ (.i32 a) :: s.stack ∧
      Reflects c fp {w₂ with memory := w₂.memory.write a.toNat (w₂.memory.read b.toNat size)} s' ∧
      s'.locals c.t32b = latest t₂ (.i32 a) := by
  obtain ⟨small,source,object⟩ := copies
  obtain ⟨s₁,ran₁,stack₁,same₁,_⟩ := first.runs w a w₁ t₁ s s.stack one early rfl reflects
  let saved : State := {s₁ with locals := Function.update s₁.locals c.t32b (.i32 a)}
  have teed : execAll M (localTee c.t32b) s₁ = .ok saved := by
    simp [localTee,Plain.exec,stack₁,saved,bind,Except.bind]
  have apart : c.fp ≠ c.t32b := by simp [Context.fp,Context.t32b]
  have same : Reflects c fp w₁ saved := ⟨same₁.sp,same₁.memory,(Function.update_of_ne apart _ _).trans same₁.frame⟩
  obtain ⟨s₂,ran₂,stack₂,same₂,held⟩ := second.runs w₁ _ w₂ t₂ saved saved.stack two late rfl same
  have held : s₂.locals c.t32b = latest t₂ (.i32 a) := held.trans (congrArg _ (Function.update_self _ _ _))
  have exact_ : (BitVec.ofInt 32 (size : Int)).toNat = size := by
    rw [BitVec.ofInt_natCast,BitVec.toNat_ofNat,Nat.mod_eq_of_lt small]
  have operands : s₂.stack = .i32 b :: .i32 a :: s.stack := by
    rw [stack₂]
    exact congrArg (List.cons (Value.i32 b)) stack₁
  refine ⟨⟨latest t₂ (.i32 a) :: s.stack,s₂.locals,s₂.sp,s₂.memory.write a.toNat (s₂.memory.read b.toNat size)⟩,?_,rfl,
    ⟨same₂.sp,?_,same₂.frame⟩,held⟩
  · simp only [List.append_assoc]
    refine append_done ran₁ (append_done teed (append_done ran₂ ?_))
    simp only [i32c,localGet,List.cons_append,List.nil_append,plain_cons,Plain.exec,State.push,operands,bind,Except.bind]
    rw [copied,exact_,same₂.memory,if_pos ⟨source,object⟩]
    simp only [execAll_nil]
    rw [held]
  · rw [same₂.memory]

theorem assignedStruct_parts {ty : Ty} {w w' : World} {v : Option Value} {t : List Assigned}
    (evaluated : assignedStruct ty lhs rhs target right w = .ok (v,w',t)) :
    ∃ a w₁ t₁ b w₂ t₂,target w = .ok (a,w₁,t₁) ∧ right w₁ = .ok (some (.i32 b),w₂,t₂) ∧ CopyFits w₂.memory (ty.size ilp32) b a ∧
      v = some (.i32 a) ∧
      w' = {w₂ with memory := w₂.memory.write a.toNat (w₂.memory.read b.toNat (ty.size ilp32))} ∧
      t = t₁ ++ ⟨ty,lhs,rhs,w,a,w₂.memory.read b.toNat (ty.size ilp32),w₂,t₂.map Assigned.target⟩ :: t₂ := by
  unfold assignedStruct at evaluated
  split at evaluated
  · cases evaluated
  split at evaluated
  · cases evaluated
  · dsimp only at evaluated
    split at evaluated
    · cases evaluated
      exact ⟨_,_,_,_,_,_,‹_›,‹_›,‹_›,rfl,rfl,rfl⟩
    · cases evaluated
  · cases evaluated

-- The stages of the code.
theorem assign_stages {ty : Ty} {depth : Nat} {code : Code} (struct : ty.isStruct = true)
    (made : genExpr c depth (.binary .assign (some ty) lhs rhs) = .ok code) :
    ∃ addr value,genAddr c depth lhs = .ok addr ∧ genExpr c depth rhs = .ok value ∧
      code = addr ++ localTee c.t32b ++ value ++ i32c (ty.size ilp32) ++ [.plain .memoryCopy] ++ localGet c.t32b := by
  have made : genAssign c (some ty) lhs rhs (genAddr c depth lhs) (genExpr c depth rhs) = .ok code := made
  unfold genAssign at made
  split at made
  · cases made
  dsimp only at made
  rw [if_pos struct] at made
  obtain ⟨addr,one,made⟩ := bind_ok made
  obtain ⟨value,two,made⟩ := bind_ok made
  cases made
  exact ⟨addr,value,one,two,rfl⟩

theorem struct_yields {ty : Ty} {depth : Nat} (struct : ty.isStruct = true)
    (addr : Yields M c fp (Begun M c fp) [] (genAddr c depth lhs) (evaluate M c fp lhs).addr fun a => [.i32 a])
    (value : Yields M c fp (Begun M c fp) [] (genExpr c depth rhs) (evaluate M c fp rhs).value Option.toList) :
    Yields M c fp (Begun M c fp) [] (genExpr c depth (.binary .assign (some ty) lhs rhs))
      (assignedStruct ty lhs rhs (evaluate M c fp lhs).addr (evaluate M c fp rhs).value) Option.toList := by
  intro code generated
  obtain ⟨first,second,one,two,rfl⟩ := assign_stages struct generated
  constructor
  · intro w v w' t s below evaluated calm stack reflects
    obtain ⟨a,w₁,t₁,b,w₂,t₂,target,source,copies,rfl,rfl,rfl⟩ := assignedStruct_parts evaluated
    obtain ⟨early,late⟩ := calm_append.mp calm
    obtain ⟨undisturbed,late⟩ := List.forall_mem_cons.mp late
    obtain ⟨s',ran,top,same,held⟩ := assigned_run (addr first one) (value second two) target source early late copies reflects
    have kept := (undisturbed_iff rfl).mp undisturbed
    refine ⟨s',ran,?_,same,?_⟩
    · rw [top,stack]
      exact congrArg (· :: below) kept
    · rw [held,latest_append]
      rfl
  · intro w v w' t e evaluated member
    obtain ⟨a,w₁,t₁,b,w₂,t₂,target,source,copies,rfl,rfl,rfl⟩ := assignedStruct_parts evaluated
    rcases List.mem_append.mp member with before | inside
    · obtain ⟨own,part,begun⟩ := (addr first one).logs w a w₁ t₁ e target before
      exact ⟨own,part.trans (List.prefix_append _ _).isInfix,begun⟩
    rcases List.mem_cons.mp inside with rfl | during
    · refine ⟨_,List.infix_rfl,⟨depth,_,generated⟩,struct,w₁,b,t₁,t₂,target,source,copies,rfl,rfl,rfl⟩
    · obtain ⟨own,part,begun⟩ := (value second two).logs w₁ _ w₂ t₂ e source during
      refine ⟨own,part.trans (List.IsInfix.trans ?_ (List.suffix_append _ _).isInfix),begun⟩
      exact (List.suffix_cons _ _).isInfix

theorem unrefused {p : Prop} [Decidable p] {message : String} {code : Code}
    (made : (if p then .error message else gen) = .ok code) : gen = .ok code := by
  split at made
  · cases made
  · exact made

-- Induction over nodes: the code of a node carries out its evaluation.
theorem node_yields (calls : CallsLocal M) (n : Node) (depth : Nat) :
    Yields M c fp (Begun M c fp) [] (genAddr c depth n) (evaluate M c fp n).addr (fun a => [.i32 a]) ∧
    Yields M c fp (Begun M c fp) [] (genExpr c depth n) (evaluate M c fp n).value Option.toList := by
  induction n generalizing depth with
  | nullExpr =>
    refine ⟨notLvalue_yields,fun _ made => ?_⟩
    cases made
    exact performs_pure rfl
  | num ty number =>
    refine ⟨notLvalue_yields,fun _ made => ?_⟩
    cases made
    exact performs_silent (genNum_computes number)
  | var ty v => exact ⟨varAddr_yields v,loaded_yields calls (varAddr_yields v)⟩
  | memzero v =>
    refine ⟨notLvalue_yields,fun _ made => ?_⟩
    cases made
    simp only [List.append_assoc]
    apply performs_computed (fpPlus_computes v.offset)
    refine performs_operator calls ?_ rfl
    simp only [List.append_assoc]
  | unary kind ty lhs ih =>
    cases kind with
    | neg => exact ⟨notLvalue_yields,neg_yields calls (ih depth).2⟩
    | not =>
      refine ⟨notLvalue_yields,fun _ made => ?_⟩
      obtain ⟨first,one,made⟩ := bind_ok made
      cases made
      apply performs_bind (cond_yields calls (ih depth).2 first one)
      exact fun b => performs_operator calls rfl rfl
    | bitnot => exact ⟨notLvalue_yields,bitnot_yields calls (ih depth).2⟩
    | addr => exact ⟨notLvalue_yields,fun code made => performs_map ((ih depth).1 code made) fun a => rfl⟩
    | deref =>
      have pointer : Yields M c fp (Begun M c fp) [] (genExprAs lhs (genExpr c depth lhs) (some .i32))
          (valueAs M lhs (evaluate M c fp lhs).value (some .i32)) Option.toList := as_yields calls (ih depth).2
      have addr := denoted_yields pointer
      exact ⟨addr,loaded_yields calls addr⟩
    | cast =>
      refine ⟨notLvalue_yields,fun _ made => ?_⟩
      cases ty with
      | none => cases made
      | some ty =>
        obtain ⟨first,one,made⟩ := bind_ok made
        obtain ⟨second,two,made⟩ := bind_ok made
        cases made
        apply performs_bind ((ih depth).2 first one)
        exact fun v => performs_operator calls two (cast_bare two)
  | binary kind ty lhs rhs ihl ihr =>
    cases kind with
    | logand => exact ⟨notLvalue_yields,logand_yields calls (ihl depth).2 (ihr (depth + 1)).2⟩
    | logor => exact ⟨notLvalue_yields,logor_yields calls (ihl depth).2 (ihr (depth + 1)).2⟩
    | comma => exact ⟨comma_yields (ihl depth).2 (ihr depth).1,comma_yields (ihl depth).2 (ihr depth).2⟩
    | assign =>
      have value : Yields M c fp (Begun M c fp) [] (genExpr c depth (.binary .assign ty lhs rhs))
          (assigned M ty lhs rhs (evaluate M c fp lhs).addr (evaluate M c fp rhs).value) Option.toList := by
        cases ty with
        | none =>
          intro code made
          have refused : genAssign c none lhs rhs (genAddr c depth lhs) (genExpr c depth rhs) = .ok code := made
          unfold genAssign at refused
          split at refused <;> cases refused
        | some ty =>
          cases struct : ty.isStruct with
          | true =>
            unfold assigned
            dsimp only
            rw [if_pos struct]
            exact struct_yields struct (ihl depth).1 (ihr depth).2
          | false => exact scalar_yields calls struct (ihl depth).1 (ihr depth).2
      exact ⟨optional_yields (denoted_yields value),value⟩
    | _ => exact ⟨notLvalue_yields,binary_yields calls (ihl depth).2 (ihr depth).2⟩
  | member ty k lhs ih =>
    have addr := member_yields k (ih depth).1
    exact ⟨addr,fun code made => loaded_yields calls addr code (unrefused made)⟩
  | cond ty test yes no ihc ihy ihn =>
    have value := @conditional_yields M c fp _ ty calls depth test yes no _ _ _ _ _ _ (ihc depth).2 (ihy (depth + 1)).2
      (ihn (depth + 1)).2
    exact ⟨optional_yields (denoted_yields value),value⟩
  | funcall ty funcTy lhs args retBuffer ihl iha =>
    have value : Yields M c fp (Begun M c fp) [] (genExpr c depth (.funcall ty funcTy lhs args retBuffer))
        (called M c fp ty funcTy lhs (evaluate M c fp lhs).value (evaluateArgs M c fp args) retBuffer) Option.toList := by
      intro code made
      have made : genFuncall c ty funcTy lhs (genExpr c depth lhs) (generateArgs c depth args) retBuffer = .ok code := made
      rw [generateArgs_map] at made
      rw [evaluateArgs_map]
      exact funcall_yields calls (ihl depth).2 (fun a member => (iha a member depth).2) code made
    exact ⟨optional_yields (denoted_yields value),value⟩
  | unsupported ty => exact ⟨notLvalue_yields,fun _ made => nomatch made⟩

end

end SandboxStack.Cc
