import SandboxStack.GenStmt
import SandboxStack.OperandFrames
import SandboxStack.TypedTrees

namespace SandboxStack.Cc
open Wasm

-- What generated code does not do anywhere: move the stack pointer, write the
-- frame pointer, and save the address of a struct assignment.
def ordinary (c : Context) : Instr → Bool
  | .plain .globalSet => false
  | .plain (.localSet i) | .plain (.localTee i) => i ≠ c.fp ∧ i ≠ c.t32b
  | .plain _ => true
  | .ifElse _ _ _ => false

-- A property of code that the ways of putting generated code together keep.
structure Closed (c : Context) (P : Code → Prop) : Prop where
  empty : P []
  append : ∀ first rest, P first → P rest → P (first ++ rest)
  plain : ∀ i, ordinary c i → P [i]
  branch : ∀ t yes no, P yes → P no → P [.ifElse t yes no]
  move : ∀ o size, o = .add ∨ o = .sub → size % 16 = 0 → P (moveSp o size)

def Made (P : Code → Prop) (gen : Gen Code) : Prop := ∀ code, gen = .ok code → P code

section
variable {c : Context} {P : Code → Prop} {code rest : Code} {gen : Gen Code} {ty : Ty} {n lhs rhs : Node} {depth : Nat}

theorem notLvalue_made : Made P notLvalue := fun _ made => nomatch made

theorem plains_closed (closed : Closed c P) (all : code.all (ordinary c) = true) : P code := by
  induction code with
  | nil => exact closed.empty
  | cons i rest ih =>
    rw [List.all_cons,Bool.and_eq_true] at all
    exact closed.append [i] rest (closed.plain i all.1) (ih all.2)

theorem after_closed (closed : Closed c P) (first : P code) (all : rest.all (ordinary c) = true) : P (code ++ rest) :=
  closed.append _ _ first (plains_closed closed all)

theorem before_closed (closed : Closed c P) (all : code.all (ordinary c) = true) (last : P rest) : P (code ++ rest) :=
  closed.append _ _ (plains_closed closed all) last

theorem convert_bare {source target : Option ValueType} {u : Bool} (made : convert source target u = .ok code) :
    code.all Instr.bare = true := by
  unfold convert at made
  split at made
  · cases made
    rfl
  · split at made <;> cases made <;> rfl

theorem toBool_bare (vc : Option ValueType) : (toBool vc).all Instr.bare = true := by
  rcases vc with _ | v
  · rfl
  · cases v <;> rfl

theorem load_bare (made : load ty = .ok code) : code.all Instr.bare = true := by
  unfold load at made
  split at made
  all_goals first
    | (cases made; rfl)
    | (unfold sized at made
       split at made <;> cases made <;> rfl)

theorem store_bare (made : store ty = .ok code) : code.all Instr.bare = true := by
  unfold store at made
  split at made
  all_goals first
    | (cases made; rfl)
    | (unfold sized at made
       split at made <;> cases made <;> rfl)

theorem narrow_bare (ty : Ty) : (narrow ty).all Instr.bare = true := by
  unfold narrow
  split
  · rfl
  · split <;> first | rfl | (split <;> rfl)

theorem cast_bare {source : Option Ty} (made : cast source ty = .ok code) : code.all Instr.bare = true := by
  unfold cast at made
  dsimp only at made
  split at made
  · cases made
    split <;> rfl
  split at made
  · cases made
    exact toBool_bare _
  cases source with
  | none => cases made
  | some source =>
    obtain ⟨converted,conversion,made⟩ := bind_ok made
    split at made
    · cases made
      rw [List.all_append,convert_bare conversion,narrow_bare]
      rfl
    · cases made
      exact convert_bare conversion

theorem bare_ordinary (bare : code.all Instr.bare = true) : code.all (ordinary c) = true := by
  refine List.all_eq_true.mpr fun i member => ?_
  have bare := List.all_eq_true.mp bare i member
  cases i with
  | ifElse => cases bare
  | plain p =>
    cases p with
    | localGet | localSet | localTee | globalSet => cases bare
    | _ => rfl

theorem fpPlus_ordinary (off : Int) : (fpPlus c off).all (ordinary c) = true := by
  unfold fpPlus
  split <;> rfl

theorem retBuffer_ordinary (v : Option Obj) : (retBufferCode c v).all (ordinary c) = true := by
  cases v with
  | none => rfl
  | some v => exact fpPlus_ordinary v.offset

theorem scratch_ordinary {vc : Option ValueType} {i : Nat} (found : scratchLocal c vc = .ok i) : i ≠ c.fp ∧ i ≠ c.t32b := by
  unfold scratchLocal at found
  split at found <;> cases found <;>
    simp [Context.t32,Context.t32b,Context.t64,Context.tf32,Context.tf64,Context.fp]

theorem genExprAs_made (closed : Closed c P) {vc : Option ValueType} (operand : Made P gen) : Made P (genExprAs n gen vc) := by
  intro code made
  obtain ⟨ty,_,made⟩ := bind_ok made
  obtain ⟨first,generated,made⟩ := bind_ok made
  obtain ⟨converted,conversion,made⟩ := bind_ok made
  cases made
  exact after_closed closed (operand first generated) (bare_ordinary (convert_bare conversion))

theorem genCond_made (closed : Closed c P) (operand : Made P gen) : Made P (genCond n gen) := by
  intro code made
  obtain ⟨first,generated,made⟩ := bind_ok made
  cases made
  exact after_closed closed (operand first generated) (bare_ordinary (toBool_bare _))

theorem droppedValue_closed (closed : Closed c P) (holds : P code) : P (droppedValue n code) := by
  unfold droppedValue
  split
  · exact after_closed closed holds rfl
  · exact holds

theorem loaded_made (closed : Closed c P) {ty : Option Ty} (addr : Made P gen) : Made P (loaded ty gen) := by
  intro code made
  obtain ⟨first,generated,made⟩ := bind_ok made
  cases ty with
  | none => cases made
  | some ty =>
    obtain ⟨second,load,made⟩ := bind_ok made
    cases made
    exact after_closed closed (addr first generated) (bare_ordinary (load_bare load))

theorem varAddr_made (closed : Closed c P) (v : Obj) : Made P (genVarAddr c v) := by
  intro code made
  unfold genVarAddr at made
  split at made
  · cases made
  split at made
  · cases made
    exact plains_closed closed (fpPlus_ordinary v.offset)
  split at made
  · cases made
  obtain ⟨addr,_,made⟩ := bind_ok made
  cases made
  exact plains_closed closed rfl

theorem memberAddr_made (closed : Closed c P) {m : Member} (addr : Made P gen) : Made P (genMemberAddr m gen) := by
  intro code made
  obtain ⟨first,generated,made⟩ := bind_ok made
  cases made
  apply after_closed closed (addr first generated)
  split <;> rfl

theorem neg_made (closed : Closed c P) {ty : Option Ty} (operand : Made P gen) : Made P (genNeg ty n gen) := by
  intro code made
  unfold genNeg at made
  split at made
  all_goals
    obtain ⟨first,generated,made⟩ := bind_ok made
    cases made
  · exact after_closed closed (operand first generated) rfl
  · exact after_closed closed (operand first generated) rfl
  · exact after_closed closed (before_closed closed rfl (genExprAs_made closed operand first generated)) rfl
  · exact after_closed closed (before_closed closed rfl (genExprAs_made closed operand first generated)) rfl

theorem bitnot_made (closed : Closed c P) {ty : Option Ty} (operand : Made P gen) : Made P (genBitnot ty n gen) := by
  intro code made
  unfold genBitnot at made
  split at made
  all_goals
    obtain ⟨first,generated,made⟩ := bind_ok made
    cases made
    exact after_closed closed (after_closed closed (genExprAs_made closed operand first generated) rfl) rfl

theorem binary_made (closed : Closed c P) {kind : BinaryKind} {ty : Option Ty} {left right : Gen Code}
    (lhsMade : Made P left) (rhsMade : Made P right) : Made P (genBinary kind ty lhs rhs left right) := by
  intro code made
  obtain ⟨lhsTy,_,made⟩ := bind_ok made
  obtain ⟨first,one,made⟩ := bind_ok made
  obtain ⟨second,two,made⟩ := bind_ok made
  dsimp only at made
  split at made
  all_goals
    obtain ⟨o,_,made⟩ := bind_ok made
    cases made
    have both := closed.append _ _ (genExprAs_made closed lhsMade first one) (genExprAs_made closed rhsMade second two)
    exact after_closed closed both rfl

theorem assign_made (closed : Closed c P) (saves : P (localTee c.t32b)) {ty : Option Ty} {left right : Gen Code}
    (lhsMade : Made P left) (rhsMade : Made P right) :
    Made P (genAssign c ty lhs rhs left right) := by
  intro code made
  unfold genAssign at made
  split at made
  · cases made
  cases ty with
  | none => cases made
  | some ty =>
    dsimp only at made
    split at made
    · obtain ⟨first,one,made⟩ := bind_ok made
      obtain ⟨second,two,made⟩ := bind_ok made
      cases made
      have address := closed.append _ _ (lhsMade first one) saves
      have both := closed.append _ _ address (rhsMade second two)
      exact after_closed closed (after_closed closed (after_closed closed both rfl) rfl) rfl
    · obtain ⟨first,one,made⟩ := bind_ok made
      obtain ⟨second,two,made⟩ := bind_ok made
      obtain ⟨scratch,found,made⟩ := bind_ok made
      obtain ⟨stored,store,made⟩ := bind_ok made
      cases made
      have kept : (localTee scratch).all (ordinary c) = true := by simp [localTee,ordinary,scratch_ordinary found]
      have both := closed.append _ _ (lhsMade first one) (genExprAs_made closed rhsMade second two)
      exact after_closed closed (after_closed closed (after_closed closed both kept) (bare_ordinary (store_bare store))) rfl

theorem conditional_made (closed : Closed c P) {ty : Option Ty} {test yes no : Node} {testCode yesCode noCode : Gen Code}
    (testMade : Made P testCode) (yesMade : Made P yesCode) (noMade : Made P noCode) :
    Made P (genConditional ty depth test yes no testCode yesCode noCode) := by
  intro code made
  obtain ⟨first,one,made⟩ := bind_ok made
  obtain ⟨_,_,made⟩ := bind_ok made
  obtain ⟨second,two,made⟩ := bind_ok made
  obtain ⟨third,three,made⟩ := bind_ok made
  cases made
  refine closed.append _ _ (genCond_made closed testMade first one) (closed.branch _ _ _ ?_ ?_)
  · exact genExprAs_made closed yesMade second two
  · exact genExprAs_made closed noMade third three

-- The arguments of a call with the code of each.
def ArgsMade (P : Code → Prop) (args : List (Node × Gen Code)) : Prop := ∀ a ∈ args, Made P a.2

theorem fixed_closed (closed : Closed c P) {count : Nat} {args : List (Node × Gen Code)} (all : ArgsMade P args)
    (made : genFixed count args = .ok code) : P code := by
  induction count generalizing args code with
  | zero =>
    cases made
    exact closed.empty
  | succ count ih =>
    cases args with
    | nil => cases made
    | cons a args =>
      obtain ⟨first,one,made⟩ := bind_ok made
      obtain ⟨second,two,made⟩ := bind_ok made
      cases made
      exact closed.append _ _ (all a (.head _) first one) (ih (fun b member => all b (.tail _ member)) two)

theorem dropped_closed (closed : Closed c P) {args : List (Node × Gen Code)} (all : ArgsMade P args)
    (made : genDropped args = .ok code) : P code := by
  induction args generalizing code with
  | nil =>
    cases made
    exact closed.empty
  | cons a args ih =>
    obtain ⟨first,one,made⟩ := bind_ok made
    obtain ⟨second,two,made⟩ := bind_ok made
    cases made
    have head := @after_closed _ _ _ drop closed (all a (.head _) first one) rfl
    exact closed.append _ _ head (ih (fun b member => all b (.tail _ member)) two)

theorem variadic_closed (closed : Closed c P) {slot : Nat} {args : List (Node × Gen Code)} (all : ArgsMade P args)
    (made : genVariadic slot args = .ok code) : P code := by
  induction args generalizing slot code with
  | nil =>
    cases made
    exact closed.empty
  | cons a args ih =>
    obtain ⟨ty,_,made⟩ := bind_ok made
    split at made
    · cases made
    obtain ⟨first,one,made⟩ := bind_ok made
    have slotCode : ([.plain .globalGet] ++ if slot ≠ 0 then i32c (slot * 8) ++ op (.i32 .add) else [] : Code).all
        (ordinary c) = true := by
      split <;> rfl
    have head := before_closed closed slotCode (all a (.head _) first one)
    dsimp only at made
    split at made
    all_goals
      obtain ⟨stored,same,made⟩ := bind_ok made
      cases same
    all_goals
      obtain ⟨second,two,made⟩ := bind_ok made
      cases made
      have tail := ih (fun b member => all b (.tail _ member)) two
      exact closed.append _ _ (after_closed closed head rfl) tail

theorem target_closed (closed : Closed c P) {funcTy : Ty} {lhsCode : Gen Code} (operand : Made P lhsCode)
    (made : genTarget c funcTy lhs lhsCode = .ok code) : P code := by
  unfold genTarget at made
  split at made
  · obtain ⟨f,_,made⟩ := bind_ok made
    cases made
    exact plains_closed closed rfl
  · obtain ⟨first,one,made⟩ := bind_ok made
    cases made
    exact after_closed closed (genExprAs_made closed operand first one) rfl

theorem alignTo_sixteen (n : Nat) : alignTo n 16 % 16 = 0 := Nat.mul_mod_left _ _

-- What the code of a call is made of, a builtin or a call with a type.
theorem funcall_parts {ty : Option Ty} {funcTy : Ty} {args : List (Node × Gen Code)} {retBuffer : Option Obj}
    (made : genFuncall c ty funcTy lhs gen args retBuffer = .ok code) :
    ((callee lhs).map Obj.name = some "__builtin_wasm_memory_size" ∧ ∃ dropped converted,genDropped args = .ok dropped ∧
      convert (some .i32) (vclass ty) true = .ok converted ∧ code = dropped ++ ([.plain .memorySize] ++ converted)) ∨
    ((callee lhs).map Obj.name = some "__builtin_wasm_memory_grow" ∧ ∃ a b rest first pages converted,args = a :: b :: rest ∧
      a.2 = .ok first ∧ genExprAs b.1 b.2 (some .i32) = .ok pages ∧ convert (some .i32) (vclass ty) true = .ok converted ∧
      code = first ++ (drop ++ (pages ++ ([.plain .memoryGrow] ++ converted)))) ∨
    ((callee lhs).map Obj.name ≠ some "__builtin_wasm_memory_size" ∧
      (callee lhs).map Obj.name ≠ some "__builtin_wasm_memory_grow" ∧ (callee lhs).map Obj.name ≠ some "alloca" ∧
      ∃ returnTy params isVariadic fixed target,funcTy = .func returnTy params isVariadic ∧
        genFixed params.length args = .ok fixed ∧ genTarget c funcTy lhs gen = .ok target ∧
        ((isVariadic = true ∧ ∃ stored size,genVariadic 0 (args.drop params.length) = .ok stored ∧
            size = alignTo ((args.drop params.length).length * 8) 16 ∧
            code = retBufferCode c retBuffer ++ (fixed ++ (moveSp .sub size ++ (stored ++ ([.plain .globalGet] ++ (target ++
              (moveSp .add size ++ retBufferCode c retBuffer))))))) ∨
          isVariadic = false ∧ code = retBufferCode c retBuffer ++ (fixed ++ (target ++ retBufferCode c retBuffer)))) := by
  unfold genFuncall at made
  split at made
  · obtain ⟨dropped,one,made⟩ := bind_ok made
    obtain ⟨converted,conversion,made⟩ := bind_ok made
    cases made
    exact .inl ⟨‹_›,dropped,converted,one,conversion,List.append_assoc ..⟩
  · split at made
    · obtain ⟨first,one,made⟩ := bind_ok made
      obtain ⟨pages,two,made⟩ := bind_ok made
      obtain ⟨converted,conversion,made⟩ := bind_ok made
      cases made
      refine .inr (.inl ⟨‹_›,_,_,_,first,pages,converted,rfl,one,two,conversion,?_⟩)
      simp only [List.append_assoc]
    · cases made
  · cases made
  · rename_i notSize notGrow notAlloca
    refine .inr (.inr ⟨notSize,notGrow,notAlloca,?_⟩)
    split at made
    · obtain ⟨fixed,one,made⟩ := bind_ok made
      dsimp only at made
      split at made
      · obtain ⟨stored,two,made⟩ := bind_ok made
        obtain ⟨target,three,made⟩ := bind_ok made
        cases made
        refine ⟨_,_,_,fixed,target,rfl,one,three,.inl ⟨‹_›,stored,_,two,rfl,?_⟩⟩
        simp only [List.append_assoc]
      · rename_i ordinary
        split at made
        · cases made
        obtain ⟨target,three,made⟩ := bind_ok made
        cases made
        refine ⟨_,_,_,fixed,target,rfl,one,three,.inr ⟨Bool.eq_false_iff.mpr ordinary,?_⟩⟩
        simp only [List.append_assoc]
    · cases made

theorem funcall_made (closed : Closed c P) {ty : Option Ty} {funcTy : Ty} {lhsCode : Gen Code}
    {args : List (Node × Gen Code)} {retBuffer : Option Obj} (operand : Made P lhsCode) (all : ArgsMade P args) :
    Made P (genFuncall c ty funcTy lhs lhsCode args retBuffer) := by
  intro code made
  have buffer : P (retBufferCode c retBuffer) := plains_closed closed (retBuffer_ordinary retBuffer)
  rcases funcall_parts made with ⟨_,dropped,converted,one,conversion,rfl⟩ |
    ⟨_,a,b,rest,first,pages,converted,rfl,one,two,conversion,rfl⟩ |
    ⟨_,_,_,returnTy,params,isVariadic,fixed,target,rfl,one,three,kinds⟩
  · have last := plains_closed closed (bare_ordinary (convert_bare conversion))
    exact closed.append _ _ (dropped_closed closed all one) (before_closed closed rfl last)
  · have last := plains_closed closed (bare_ordinary (convert_bare conversion))
    have grown : P ([.plain .memoryGrow] ++ converted) := before_closed closed rfl last
    have right := closed.append _ _ (genExprAs_made closed (all _ (.tail _ (.head _))) pages two) grown
    have dropped : P (drop ++ (pages ++ ([.plain .memoryGrow] ++ converted))) := before_closed closed rfl right
    exact closed.append _ _ (all _ (.head _) first one) dropped
  · have call := target_closed closed operand three
    have passed := fixed_closed closed all one
    rcases kinds with ⟨rfl,stored,size,two,rfl,rfl⟩ | ⟨rfl,rfl⟩
    · have aligned := alignTo_sixteen ((args.drop params.length).length * 8)
      have later := variadic_closed closed (fun a member => all a (List.mem_of_mem_drop member)) two
      have raised := closed.append _ _ call (closed.append _ _ (closed.move .add _ (.inl rfl) aligned) buffer)
      have called : P ([.plain .globalGet] ++ (target ++ (moveSp .add _ ++ retBufferCode c retBuffer))) :=
        before_closed closed rfl raised
      have filled := closed.append _ _ later called
      have lowered := closed.append _ _ (closed.move .sub _ (.inr rfl) aligned) filled
      exact closed.append _ _ buffer (closed.append _ _ passed lowered)
    · exact closed.append _ _ buffer (closed.append _ _ passed (closed.append _ _ call buffer))

theorem generateArgs_made (depth : Nat) {args : List Node} (all : ∀ a ∈ args,∀ depth,Made P (generate c depth a).value) :
    ArgsMade P (generateArgs c depth args) := by
  induction args with
  | nil => exact fun a member => nomatch member
  | cons a args ih =>
    intro b member
    rcases List.mem_cons.mp member with rfl | later
    · exact all a (.head _) depth
    · exact ih (fun d present => all d (.tail _ present)) b later

-- Induction over generated expressions: what the pieces have and putting
-- pieces together keeps, the code of every node has.
theorem node_made (closed : Closed c P) (saves : P (localTee c.t32b)) (n : Node) (depth : Nat) :
    Made P (generate c depth n).addr ∧ Made P (generate c depth n).value := by
  induction n generalizing depth with
  | nullExpr => exact ⟨notLvalue_made,fun _ made => by cases made; exact closed.empty⟩
  | num ty number =>
    refine ⟨notLvalue_made,fun _ made => ?_⟩
    cases made
    apply plains_closed closed
    unfold genNum
    split <;> rfl
  | var ty v => exact ⟨varAddr_made closed v,loaded_made closed (varAddr_made closed v)⟩
  | memzero v =>
    refine ⟨notLvalue_made,fun _ made => ?_⟩
    cases made
    have slot := plains_closed closed (fpPlus_ordinary (c := c) v.offset)
    exact after_closed closed (after_closed closed (after_closed closed slot rfl) rfl) rfl
  | unary kind ty lhs ih =>
    cases kind with
    | neg => exact ⟨notLvalue_made,neg_made closed (ih depth).2⟩
    | not =>
      refine ⟨notLvalue_made,fun _ made => ?_⟩
      obtain ⟨first,one,made⟩ := bind_ok made
      cases made
      exact after_closed closed (genCond_made closed (ih depth).2 first one) rfl
    | bitnot => exact ⟨notLvalue_made,bitnot_made closed (ih depth).2⟩
    | addr => exact ⟨notLvalue_made,(ih depth).1⟩
    | deref => exact ⟨genExprAs_made closed (ih depth).2,loaded_made closed (genExprAs_made closed (ih depth).2)⟩
    | cast =>
      refine ⟨notLvalue_made,fun _ made => ?_⟩
      cases ty with
      | none => cases made
      | some ty =>
        obtain ⟨first,one,made⟩ := bind_ok made
        obtain ⟨second,two,made⟩ := bind_ok made
        cases made
        exact after_closed closed ((ih depth).2 first one) (bare_ordinary (cast_bare two))
  | binary kind ty lhs rhs ihl ihr =>
    have ordinary : Made P (genBinary kind ty lhs rhs _ _) := binary_made closed (ihl depth).2 (ihr depth).2
    cases kind with
    | logand =>
      refine ⟨notLvalue_made,fun _ made => ?_⟩
      obtain ⟨first,one,made⟩ := bind_ok made
      obtain ⟨_,_,made⟩ := bind_ok made
      obtain ⟨second,two,made⟩ := bind_ok made
      cases made
      refine closed.append _ _ (genCond_made closed (ihl depth).2 first one) (closed.branch _ _ _ ?_ ?_)
      · exact genCond_made closed (ihr (depth + 1)).2 second two
      · exact plains_closed closed rfl
    | logor =>
      refine ⟨notLvalue_made,fun _ made => ?_⟩
      obtain ⟨first,one,made⟩ := bind_ok made
      obtain ⟨_,_,made⟩ := bind_ok made
      obtain ⟨second,two,made⟩ := bind_ok made
      cases made
      refine closed.append _ _ (genCond_made closed (ihl depth).2 first one) (closed.branch _ _ _ ?_ ?_)
      · exact plains_closed closed rfl
      · exact genCond_made closed (ihr (depth + 1)).2 second two
    | comma =>
      constructor
      all_goals
        intro code made
        obtain ⟨first,one,made⟩ := bind_ok made
        obtain ⟨second,two,made⟩ := bind_ok made
        cases made
        have head := droppedValue_closed (n := lhs) closed ((ihl depth).2 first one)
      · exact closed.append _ _ head ((ihr depth).1 second two)
      · exact closed.append _ _ head ((ihr depth).2 second two)
    | assign =>
      have value : Made P (genAssign c ty lhs rhs _ _) := assign_made closed saves (ihl depth).1 (ihr depth).2
      refine ⟨?_,value⟩
      unfold generate
      dsimp only
      split
      · exact value
      · exact notLvalue_made
    | _ => exact ⟨notLvalue_made,ordinary⟩
  | member ty m lhs ih =>
    refine ⟨memberAddr_made closed (ih depth).1,?_⟩
    unfold generate
    dsimp only
    split
    · exact fun _ made => nomatch made
    · exact loaded_made closed (memberAddr_made closed (ih depth).1)
  | cond ty test yes no ihc ihy ihn =>
    have value : Made P (genConditional ty depth test yes no _ _ _) :=
      conditional_made closed (ihc depth).2 (ihy (depth + 1)).2 (ihn (depth + 1)).2
    refine ⟨?_,value⟩
    unfold generate
    dsimp only
    split
    · exact value
    · exact notLvalue_made
  | funcall ty funcTy lhs args retBuffer ihl iha =>
    have value : Made P (genFuncall c ty funcTy lhs _ _ retBuffer) :=
      funcall_made closed (ihl depth).2 (generateArgs_made depth fun a member depth => (iha a member depth).2)
    refine ⟨?_,value⟩
    unfold generate
    dsimp only
    split
    · exact value
    · exact notLvalue_made
  | unsupported ty => exact ⟨notLvalue_made,fun _ made => nomatch made⟩

theorem expr_made (closed : Closed c P) (saves : P (localTee c.t32b)) (n : Node) (depth : Nat) :
    Made P (genExpr c depth n) := (node_made closed saves n depth).2

end

-- The code between the control instructions of a body.
def BodyMade (P : Code → Prop) (body : Body) : Prop := ∀ code, .code code ∈ body → P code

section
variable {c : Context} {P : Code → Prop} {code : Code} {body rest : Body} {gen : Gen Code} {k k' : Control}

theorem body_append (first : BodyMade P body) (second : BodyMade P rest) : BodyMade P (body ++ rest) := fun code member =>
  (List.mem_append.mp member).elim (first code) (second code)

theorem body_one (holds : P code) : BodyMade P [.code code] := fun _ member => by
  cases List.mem_singleton.mp member
  exact holds

def isControl : Flow → Bool
  | .code _ => false
  | _ => true

theorem body_control (all : body.all isControl = true) : BodyMade P body := fun _ member =>
  nomatch List.all_eq_true.mp all _ member

theorem body_after (rest : Body) (first : BodyMade P body) (all : rest.all isControl = true) : BodyMade P (body ++ rest) :=
  body_append first (body_control all)

theorem body_before (body : Body) (all : body.all isControl = true) (second : BodyMade P rest) : BodyMade P (body ++ rest) :=
  body_append (body_control all) second

theorem blocks_control (labels : List String) : (labels.map fun _ => Flow.block).all isControl = true := by
  simp [isControl]

theorem discarded_made (closed : Closed c P) {n : Node} (operand : Made P gen) (made : genDiscarded n gen = .ok body) :
    BodyMade P body := by
  obtain ⟨first,one,made⟩ := bind_ok made
  cases made
  exact body_one (droppedValue_closed closed (operand first one))

theorem cases_made (closed : Closed c P) {wide : Bool} {scratch : Nat} {cases_ : List Case}
    (made : genCases wide scratch k cases_ = .ok body) : BodyMade P body := by
  induction cases_ generalizing body with
  | nil =>
    cases made
    exact fun _ member => nomatch member
  | cons one rest ih =>
    obtain ⟨target,_,made⟩ := bind_ok made
    obtain ⟨later,two,made⟩ := bind_ok made
    cases made
    have tested : (localGet scratch ++ caseTest wide one).all (ordinary c) = true := by
      unfold caseTest
      split <;> split <;> rfl
    exact body_append (body_after _ (body_one (plains_closed closed tested)) rfl) (ih two)

theorem loopTest_made (closed : Closed c P) (saves : P (localTee c.t32b)) {brk : String} {cond : Option Node} (made : genLoopTest c k brk cond = .ok body) :
    BodyMade P body := by
  cases cond with
  | none =>
    cases made
    exact fun _ member => nomatch member
  | some n =>
    obtain ⟨first,one,made⟩ := bind_ok made
    obtain ⟨target,_,made⟩ := bind_ok made
    cases made
    have tested := @after_closed _ _ _ (op .i32Eqz) closed (genCond_made closed (expr_made closed saves n k.depth) first one) rfl
    exact body_after [_] (body_one tested) rfl

theorem loopStep_made (closed : Closed c P) (saves : P (localTee c.t32b)) {inc : Option Node} (made : genLoopStep c k inc = .ok body) : BodyMade P body := by
  cases inc with
  | none =>
    cases made
    exact fun _ member => nomatch member
  | some n => exact discarded_made closed (expr_made closed saves n k.depth) made

theorem returned_made (closed : Closed c P) {n : Node} (operand : Made P gen) (made : genReturned c n gen = .ok code) :
    P code := by
  obtain ⟨ty,_,made⟩ := bind_ok made
  split at made
  · obtain ⟨first,one,made⟩ := bind_ok made
    cases made
    exact after_closed closed (after_closed closed (before_closed closed rfl (operand first one)) rfl) rfl
  · obtain ⟨first,one,made⟩ := bind_ok made
    cases made
    apply after_closed closed (genExprAs_made closed operand first one)
    simp [localSet,ordinary,Context.rv,Context.fp,Context.t32b]

theorem stmts_made {stmts : List Stmt} (all : ∀ s ∈ stmts,∀ (k k' : Control) (body : Body),
      genStmt c s k = .ok (body,k') → BodyMade P body)
    (made : genStmts c stmts k = .ok (body,k')) : BodyMade P body := by
  induction stmts generalizing k body with
  | nil =>
    cases made
    exact fun _ member => nomatch member
  | cons s rest ih =>
    obtain ⟨⟨first,middle⟩,one,made⟩ := bind_ok made
    obtain ⟨⟨second,last⟩,two,made⟩ := bind_ok made
    cases made
    exact body_append (all s (.head _) _ _ _ one) (ih (fun t member => all t (.tail _ member)) two)

theorem stmt_made (closed : Closed c P) (saves : P (localTee c.t32b)) (s : Stmt) (made : genStmt c s k = .ok (body,k')) : BodyMade P body := by
  induction s generalizing k k' body with
  | block stmts ih => exact stmts_made (fun s member _ _ _ made => ih s member made) made
  | exprStmt lhs =>
    obtain ⟨first,one,made⟩ := bind_ok made
    cases made
    exact discarded_made closed (expr_made closed saves lhs k.depth) one
  | ifThen cond yes ih =>
    obtain ⟨test,one,made⟩ := bind_ok made
    obtain ⟨inner,_,made⟩ := bind_ok made
    obtain ⟨⟨first,last⟩,two,made⟩ := bind_ok made
    cases made
    have head := body_after [.ifThen] (body_one (genCond_made closed (expr_made closed saves cond k.depth) test one)) rfl
    exact body_after _ (body_append head (ih two)) rfl
  | ifElse cond yes no ihy ihn =>
    obtain ⟨test,one,made⟩ := bind_ok made
    obtain ⟨inner,_,made⟩ := bind_ok made
    obtain ⟨⟨first,middle⟩,two,made⟩ := bind_ok made
    obtain ⟨⟨second,last⟩,three,made⟩ := bind_ok made
    cases made
    have head := body_after [.ifThen] (body_one (genCond_made closed (expr_made closed saves cond k.depth) test one)) rfl
    have arms := body_append (body_after [.elseThen] (body_append head (ihy two)) rfl) (ihn three)
    exact body_after _ arms rfl
  | forLoop init cond inc loop brk cont ihi ihb =>
    obtain ⟨⟨first,start⟩,one,made⟩ := bind_ok made
    obtain ⟨outer,_,made⟩ := bind_ok made
    obtain ⟨top,_,made⟩ := bind_ok made
    obtain ⟨test,two,made⟩ := bind_ok made
    obtain ⟨inner,_,made⟩ := bind_ok made
    obtain ⟨⟨second,last⟩,three,made⟩ := bind_ok made
    obtain ⟨step,four,made⟩ := bind_ok made
    obtain ⟨target,_,made⟩ := bind_ok made
    cases made
    have head := body_append (body_after [.block,.loop] (ihi one) rfl) (loopTest_made closed saves two)
    have middle := body_append (body_after [.block] head rfl) (ihb three)
    have whole := body_append (body_after [.close] middle rfl) (loopStep_made closed saves four)
    exact body_after _ whole rfl
  | doWhile loop cond brk cont ih =>
    obtain ⟨outer,_,made⟩ := bind_ok made
    obtain ⟨top,_,made⟩ := bind_ok made
    obtain ⟨inner,_,made⟩ := bind_ok made
    obtain ⟨⟨first,last⟩,one,made⟩ := bind_ok made
    obtain ⟨test,two,made⟩ := bind_ok made
    obtain ⟨target,_,made⟩ := bind_ok made
    cases made
    have looped := body_before [.block,.loop,.block] rfl (ih one)
    have tested := body_one (genCond_made closed (expr_made closed saves cond _) test two)
    have ended := body_before [.close] rfl (body_after [.brIf target,.close,.close] tested rfl)
    exact body_append looped ended
  | switch cond body brk cases_ default ih =>
    obtain ⟨value,one,made⟩ := bind_ok made
    obtain ⟨scratch,found,made⟩ := bind_ok made
    dsimp only at made
    split at made
    · cases made
    obtain ⟨outer,_,made⟩ := bind_ok made
    obtain ⟨inner,_,made⟩ := bind_ok made
    obtain ⟨tests,two,made⟩ := bind_ok made
    obtain ⟨target,_,made⟩ := bind_ok made
    obtain ⟨⟨first,last⟩,three,made⟩ := bind_ok made
    obtain ⟨ended,_,made⟩ := bind_ok made
    cases made
    have kept : (localSet scratch).all (ordinary c) = true := by simp [localSet,ordinary,scratch_ordinary found]
    have head := after_closed closed (expr_made closed saves cond k.depth value one) kept
    have opened := body_after _ (body_after [.block] (body_one head) rfl) (blocks_control (collectCases body))
    have tested := body_after [.br target] (body_append opened (cases_made closed two)) rfl
    exact body_after _ (body_append tested (ih three)) rfl
  | caseOf label lhs ih =>
    obtain ⟨popped,_,made⟩ := bind_ok made
    obtain ⟨⟨first,last⟩,one,made⟩ := bind_ok made
    cases made
    exact body_before [.close] rfl (ih one)
  | goto label =>
    obtain ⟨target,_,made⟩ := bind_ok made
    cases made
    exact body_control rfl
  | label label lhs ih =>
    obtain ⟨popped,_,made⟩ := bind_ok made
    obtain ⟨⟨first,last⟩,one,made⟩ := bind_ok made
    cases made
    exact body_before [.close] rfl (ih one)
  | ret lhs =>
    cases lhs with
    | none =>
      obtain ⟨target,_,made⟩ := bind_ok made
      cases made
      exact body_control rfl
    | some n =>
      obtain ⟨first,one,made⟩ := bind_ok made
      obtain ⟨target,_,made⟩ := bind_ok made
      cases made
      exact body_after [_] (body_one (returned_made closed (expr_made closed saves n k.depth) one)) rfl
  | unsupported => cases made

theorem spill_ordinary {i : Nat} {params : List Obj} (made : spillParams c i params = .ok code) :
    code.all (ordinary c) = true := by
  induction params generalizing i code with
  | nil =>
    cases made
    rfl
  | cons p rest ih =>
    unfold spillParams at made
    dsimp only at made
    split at made
    · obtain ⟨spilled,same,made⟩ := bind_ok made
      obtain ⟨later,two,made⟩ := bind_ok made
      cases same
      cases made
      rw [List.all_append,List.all_append,List.all_append,fpPlus_ordinary,ih two]
      rfl
    · obtain ⟨spilled,one,made⟩ := bind_ok made
      obtain ⟨later,two,made⟩ := bind_ok made
      cases made
      rw [List.all_append,List.all_append,List.all_append,fpPlus_ordinary,bare_ordinary (store_bare one),ih two]
      rfl

theorem params_ordinary {fn : Global} (made : genParams c fn = .ok code) : code.all (ordinary c) = true := by
  obtain ⟨params,one,made⟩ := bind_ok made
  split at made
  · obtain ⟨area,two,made⟩ := bind_ok made
    have stored : area.all (ordinary c) = true := by
      unfold spillVaArea at two
      split at two
      · cases two
        rw [List.all_append,List.all_append,fpPlus_ordinary]
        rfl
      · cases two
    cases made
    rw [List.all_append,spill_ordinary one,stored]
    rfl
  · cases made
    exact spill_ordinary one

-- The parts of a generated function: its prologue and the spilled parameters,
-- its statements, and its epilogue.
theorem genFunction_parts (closed : Closed c P) (saves : P (localTee c.t32b)) {fn : Global} {out : FunctionBody} (made : genFunction c fn = .ok out) :
    ∃ offsets frameSize params body,assignLvarOffsets fn.locals = .ok (offsets,frameSize) ∧ params.all (ordinary c) = true ∧
      BodyMade P body ∧ out.body = .code (prologue c frameSize ++ params) :: (body ++ [.code (epilogue c frameSize)]) := by
  obtain ⟨⟨offsets,frameSize⟩,placed,made⟩ := bind_ok made
  obtain ⟨params,one,made⟩ := bind_ok made
  obtain ⟨body,two,made⟩ := bind_ok made
  cases made
  refine ⟨offsets,frameSize,params,body,placed,params_ordinary one,?_,rfl⟩
  unfold genBody at two
  dsimp only at two
  split at two
  · cases two
  obtain ⟨first,_,two⟩ := bind_ok two
  obtain ⟨start,_,two⟩ := bind_ok two
  obtain ⟨⟨inner,last⟩,generated,two⟩ := bind_ok two
  dsimp only at two
  split at two
  · cases two
  cases two
  have opened := body_before ([.block] ++ (topLabels fn.body).map fun _ => .block) (blocks_control (topLabels fn.body))
    (stmt_made closed saves fn.body generated)
  exact body_after _ opened rfl

end

end SandboxStack.Cc
