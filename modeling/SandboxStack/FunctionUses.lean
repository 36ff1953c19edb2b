import SandboxStack.GenModule
import SandboxStack.TypedTrees

namespace SandboxStack.Wasm

mutual

def Instr.plains : Instr → List Plain
  | .plain p => [p]
  | .ifElse _ yes no => plains yes ++ plains no

def plains : List Instr → List Plain
  | [] => []
  | i :: rest => i.plains ++ plains rest

end

-- The instructions of a function body in the order they are written.
def flowPlains (body : Body) : List Plain :=
  body.flatMap fun
    | .code c => plains c
    | _ => []

def Plain.refers : Plain → Bool
  | .call _ | .callIndirect _ => true
  | _ => false

-- Code without calls.
def quiet (code : Code) : Bool := (plains code).all fun p => !p.refers

theorem plains_append (code rest : Code) : plains (code ++ rest) = plains code ++ plains rest := by
  induction code with
  | nil => rfl
  | cons i more ih => simp [plains,ih]

@[simp] theorem flowPlains_append (body rest : Body) : flowPlains (body ++ rest) = flowPlains body ++ flowPlains rest :=
  List.flatMap_append

end SandboxStack.Wasm

namespace SandboxStack.Cc
open Wasm

-- Every call in the code is for one use, every use has an instruction that
-- stands in `R` to it, and they come in the same order.
inductive Linked (R : Use → Plain → Prop) : List Use → List Plain → Prop
  | done : Linked R [] []
  | other {p : Plain} {us : List Use} {ps : List Plain} (quiet : p.refers = false) : Linked R us ps → Linked R us (p :: ps)
  | used {u : Use} {p : Plain} {us : List Use} {ps : List Plain} (related : R u p) :
    Linked R us ps → Linked R (u :: us) (p :: ps)

section
variable {R S : Use → Plain → Prop} {us vs : List Use} {ps qs : List Plain}

theorem linked_append (first : Linked R us ps) (second : Linked R vs qs) : Linked R (us ++ vs) (ps ++ qs) := by
  induction first with
  | done => exact second
  | other quiet _ ih => exact .other quiet ih
  | used related _ ih => exact .used related ih

theorem linked_quiet (silent : (ps.all fun p => !p.refers) = true) : Linked R [] ps := by
  induction ps with
  | nil => exact .done
  | cons p rest ih =>
    simp only [List.all_cons,Bool.and_eq_true,Bool.not_eq_true'] at silent
    exact .other silent.1 (ih silent.2)

theorem linked_mono (weaker : ∀ u ∈ us, ∀ p, R u p → S u p) (linked : Linked R us ps) : Linked S us ps := by
  induction linked with
  | done => exact .done
  | other quiet _ ih => exact .other quiet (ih weaker)
  | used related _ ih =>
    refine .used (weaker _ (List.mem_cons_self ..) _ related) (ih ?_)
    intro u member
    exact weaker u (List.mem_cons_of_mem _ member)

theorem linked_uses (linked : Linked R us ps) (u : Use) (member : u ∈ us) : ∃ p, R u p := by
  induction linked with
  | done => cases member
  | other _ _ ih => exact ih member
  | used related _ ih =>
    rcases List.mem_cons.mp member with rfl | later
    · exact ⟨_,related⟩
    · exact ih later

end

-- The numbers the code of one function has for its uses.
def Numbers (c : Context) : Use → Plain → Prop
  | .call name,p => ∃ f, c.funcIndex name = some f ∧ p = .call f
  | .indirect funcTy,p => funcTy.isFunc = true ∧ p = .callIndirect (c.sigIndex funcTy)
  | .address name,p => ∃ f, c.funcIndex name = some f ∧ p = .i32Const (BitVec.ofInt 32 (f + 1))

def Links (c : Context) (us : List Use) (code : Code) : Prop := Linked (Numbers c) us (plains code)

def GenLinks (c : Context) (us : List Use) (gen : Gen Code) : Prop := ∀ code, gen = .ok code → Links c us code

section
variable {c : Context} {us vs : List Use} {code rest : Code} {gen : Gen Code} {n lhs rhs : Node} {depth : Nat} {ty : Ty}

theorem links_append (first : Links c us code) (second : Links c vs rest) : Links c (us ++ vs) (code ++ rest) := by
  unfold Links
  rw [plains_append]
  exact linked_append first second

theorem links_quiet (silent : quiet code = true) : Links c [] code := linked_quiet silent

theorem links_before (silent : quiet code = true) (second : Links c us rest) : Links c us (code ++ rest) :=
  links_append (links_quiet silent) second

theorem links_after (first : Links c us code) (silent : quiet rest = true) : Links c us (code ++ rest) := by
  have both := links_append first (links_quiet (c := c) silent)
  rwa [List.append_nil] at both

theorem links_if {t : Option ValueType} (yes : Links c us code) (no : Links c vs rest) :
    Links c (us ++ vs) [.ifElse t code rest] := by
  have both := linked_append yes no
  simpa [Links,plains,Instr.plains] using both

theorem quiet_append (first : quiet code = true) (second : quiet rest = true) : quiet (code ++ rest) = true := by
  unfold quiet at first second ⊢
  rw [plains_append,List.all_append,first,second]
  rfl

theorem convert_quiet {source target : Option ValueType} {u : Bool} (made : convert source target u = .ok code) :
    quiet code = true := by
  unfold convert at made
  split at made
  · cases made
    rfl
  · split at made <;> cases made <;> rfl

theorem toBool_quiet (vc : Option ValueType) : quiet (toBool vc) = true := by
  rcases vc with _ | v
  · rfl
  · cases v <;> rfl

theorem sized_quiet {one two four eight : Plain} {size : Nat} (made : sized one two four eight size = .ok code)
    (silent : one.refers = false ∧ two.refers = false ∧ four.refers = false ∧ eight.refers = false) : quiet code = true := by
  obtain ⟨h1,h2,h4,h8⟩ := silent
  unfold sized at made
  split at made <;> cases made <;> simp [quiet,plains,Instr.plains,h1,h2,h4,h8]

theorem load_quiet (made : load ty = .ok code) : quiet code = true := by
  unfold load at made
  split at made
  all_goals first
    | (cases made; rfl)
    | exact sized_quiet made ⟨rfl,rfl,rfl,rfl⟩

theorem store_quiet (made : store ty = .ok code) : quiet code = true := by
  unfold store at made
  split at made
  all_goals first
    | (cases made; rfl)
    | exact sized_quiet made ⟨rfl,rfl,rfl,rfl⟩

theorem narrow_quiet (ty : Ty) : quiet (narrow ty) = true := by
  unfold narrow
  split
  · rfl
  · split <;> first | rfl | (split <;> rfl)

theorem cast_quiet {source : Option Ty} (made : cast source ty = .ok code) : quiet code = true := by
  unfold cast at made
  dsimp only at made
  split at made
  · cases made
    split <;> rfl
  split at made
  · cases made
    exact toBool_quiet _
  cases source with
  | none => cases made
  | some source =>
    obtain ⟨converted,conversion,made⟩ := bind_ok made
    split at made
    · cases made
      exact quiet_append (convert_quiet conversion) (narrow_quiet ty)
    · cases made
      exact convert_quiet conversion

theorem fpPlus_quiet (off : Int) : quiet (fpPlus c off) = true := by
  unfold fpPlus
  split <;> rfl

theorem moveSp_quiet (o : IntBinary) (size : Nat) : quiet (moveSp o size) = true := by
  unfold moveSp
  split <;> rfl

theorem retBuffer_quiet (v : Option Obj) : quiet (retBufferCode c v) = true := by
  cases v with
  | none => rfl
  | some v => exact fpPlus_quiet v.offset

theorem genExprAs_links {vc : Option ValueType} (operand : GenLinks c us gen) : GenLinks c us (genExprAs n gen vc) := by
  intro code made
  obtain ⟨ty,_,made⟩ := bind_ok made
  obtain ⟨first,generated,made⟩ := bind_ok made
  obtain ⟨converted,conversion,made⟩ := bind_ok made
  cases made
  exact links_after (operand first generated) (convert_quiet conversion)

theorem genCond_links (operand : GenLinks c us gen) : GenLinks c us (genCond n gen) := by
  intro code made
  obtain ⟨first,generated,made⟩ := bind_ok made
  cases made
  exact links_after (operand first generated) (toBool_quiet _)

theorem droppedValue_links (links : Links c us code) : Links c us (droppedValue n code) := by
  unfold droppedValue
  split
  · exact links_after links rfl
  · exact links

theorem loaded_links {ty : Option Ty} (addr : GenLinks c us gen) : GenLinks c us (loaded ty gen) := by
  intro code made
  obtain ⟨first,generated,made⟩ := bind_ok made
  cases ty with
  | none => cases made
  | some ty =>
    obtain ⟨second,load,made⟩ := bind_ok made
    cases made
    exact links_after (addr first generated) (load_quiet load)

theorem varAddr_links (v : Obj) : GenLinks c (varUses v) (genVarAddr c v) := by
  intro code made
  unfold genVarAddr at made
  split at made
  · cases made
  split at made
  · rename_i isLocal
    cases made
    have none_ : varUses v = [] := by simp [varUses,isLocal]
    rw [none_]
    exact links_quiet (fpPlus_quiet v.offset)
  split at made
  · cases made
  rename_i notLocal _
  obtain ⟨addr,found,made⟩ := bind_ok made
  cases made
  unfold globalAddr at found
  split at found
  · rename_i isFunction
    obtain ⟨f,numbered,found⟩ := bind_ok found
    cases found
    have one : varUses v = [.address v.name] := by simp [varUses,isFunction,notLocal]
    rw [one]
    unfold funcIdx at numbered
    split at numbered
    · rename_i j known
      cases numbered
      exact .used ⟨f,known,rfl⟩ .done
    · cases numbered
  · rename_i notFunction
    have none_ : varUses v = [] := by simp [varUses,notFunction]
    rw [none_]
    exact links_quiet rfl

theorem member_links {m : Member} (addr : GenLinks c us gen) : GenLinks c us (genMemberAddr m gen) := by
  intro code made
  obtain ⟨first,generated,made⟩ := bind_ok made
  cases made
  refine links_after (addr first generated) ?_
  split <;> rfl

theorem neg_links {ty : Option Ty} (operand : GenLinks c us gen) : GenLinks c us (genNeg ty n gen) := by
  intro code made
  unfold genNeg at made
  split at made
  all_goals
    obtain ⟨first,generated,made⟩ := bind_ok made
    cases made
  · exact links_after (operand first generated) rfl
  · exact links_after (operand first generated) rfl
  · rw [List.append_assoc]
    exact links_before rfl (links_after (genExprAs_links operand first generated) rfl)
  · rw [List.append_assoc]
    exact links_before rfl (links_after (genExprAs_links operand first generated) rfl)

theorem bitnot_links {ty : Option Ty} (operand : GenLinks c us gen) : GenLinks c us (genBitnot ty n gen) := by
  intro code made
  unfold genBitnot at made
  split at made
  all_goals
    obtain ⟨first,generated,made⟩ := bind_ok made
    cases made
    rw [List.append_assoc]
    exact links_after (genExprAs_links operand first generated) rfl

theorem binary_links {kind : BinaryKind} {ty : Option Ty} {left right : Gen Code}
    (lhsLinks : GenLinks c us left) (rhsLinks : GenLinks c vs right) :
    GenLinks c (us ++ vs) (genBinary kind ty lhs rhs left right) := by
  intro code made
  obtain ⟨lhsTy,_,made⟩ := bind_ok made
  obtain ⟨first,one,made⟩ := bind_ok made
  obtain ⟨second,two,made⟩ := bind_ok made
  dsimp only at made
  split at made
  all_goals
    obtain ⟨o,_,made⟩ := bind_ok made
    cases made
    exact links_after (links_append (genExprAs_links lhsLinks first one) (genExprAs_links rhsLinks second two)) rfl

theorem assign_links {ty : Option Ty} {left right : Gen Code} (lhsLinks : GenLinks c us left) (rhsLinks : GenLinks c vs right) :
    GenLinks c (us ++ vs) (genAssign c ty lhs rhs left right) := by
  intro code made
  unfold genAssign at made
  split at made
  · cases made
  cases ty with
  | none => cases made
  | some ty =>
    dsimp only at made
    split at made
    · obtain ⟨first,one,made⟩ := bind_ok made
      obtain ⟨second,two,made⟩ := bind_ok made
      cases made
      rw [List.append_assoc,List.append_assoc]
      exact links_after (links_append (links_after (lhsLinks first one) rfl) (rhsLinks second two)) rfl
    · obtain ⟨first,one,made⟩ := bind_ok made
      obtain ⟨second,two,made⟩ := bind_ok made
      obtain ⟨scratch,_,made⟩ := bind_ok made
      obtain ⟨stored,store,made⟩ := bind_ok made
      cases made
      refine links_after (links_after (links_after ?_ rfl) (store_quiet store)) rfl
      exact links_append (lhsLinks first one) (genExprAs_links rhsLinks second two)

theorem conditional_links {ty : Option Ty} {ws : List Use} {test yes no : Node} {testCode yesCode noCode : Gen Code}
    (testLinks : GenLinks c us testCode) (yesLinks : GenLinks c vs yesCode) (noLinks : GenLinks c ws noCode) :
    GenLinks c (us ++ vs ++ ws) (genConditional ty depth test yes no testCode yesCode noCode) := by
  intro code made
  obtain ⟨first,one,made⟩ := bind_ok made
  obtain ⟨_,_,made⟩ := bind_ok made
  obtain ⟨second,two,made⟩ := bind_ok made
  obtain ⟨third,three,made⟩ := bind_ok made
  cases made
  rw [List.append_assoc]
  refine links_append (genCond_links testLinks first one) (links_if ?_ ?_)
  · exact genExprAs_links yesLinks second two
  · exact genExprAs_links noLinks third three

end

theorem argUses_map (args : List Node) : argUses args = args.map fun a => (uses a).value := by
  induction args with
  | nil => rfl
  | cons a rest ih => rw [argUses,List.map_cons,ih]

section
variable {c : Context} {code : Code} {depth : Nat} {args : List Node} {funcTy : Ty} {lhs : Node}

-- The uses of arguments are met when those of each argument are.
def ArgLinks (c : Context) (depth : Nat) (args : List Node) : Prop :=
  ∀ a ∈ args, GenLinks c (uses a).value (generate c depth a).value

theorem fixed_links {count : Nat} (all : ArgLinks c depth args) (made : genFixed count (generateArgs c depth args) = .ok code) :
    Links c ((argUses args).take count).flatten code := by
  induction count generalizing args code with
  | zero =>
    cases made
    exact .done
  | succ count ih =>
    cases args with
    | nil => cases made
    | cons a args =>
      obtain ⟨first,one,made⟩ := bind_ok made
      obtain ⟨second,two,made⟩ := bind_ok made
      cases made
      have tail := ih (fun b member => all b (List.mem_cons_of_mem _ member)) two
      exact links_append (all a (List.mem_cons_self ..) first one) tail

theorem dropped_links (all : ArgLinks c depth args) (made : genDropped (generateArgs c depth args) = .ok code) :
    Links c (argUses args).flatten code := by
  induction args generalizing code with
  | nil =>
    cases made
    exact .done
  | cons a args ih =>
    obtain ⟨first,one,made⟩ := bind_ok made
    obtain ⟨second,two,made⟩ := bind_ok made
    cases made
    have tail := ih (fun b member => all b (List.mem_cons_of_mem _ member)) two
    exact links_append (links_after (all a (List.mem_cons_self ..) first one) rfl) tail

theorem variadic_links {slot : Nat} (all : ArgLinks c depth args)
    (made : genVariadic slot (generateArgs c depth args) = .ok code) : Links c (argUses args).flatten code := by
  induction args generalizing slot code with
  | nil =>
    cases made
    exact .done
  | cons a args ih =>
    obtain ⟨ty,_,made⟩ := bind_ok made
    split at made
    · cases made
    obtain ⟨first,one,made⟩ := bind_ok made
    have slotCode : quiet ([.plain .globalGet] ++ if slot ≠ 0 then i32c (slot * 8) ++ op (.i32 .add) else []) = true := by
      split <;> rfl
    have head := links_before slotCode (all a (List.mem_cons_self ..) first one)
    dsimp only at made
    split at made
    all_goals
      obtain ⟨stored,same,made⟩ := bind_ok made
      cases same
    all_goals
      obtain ⟨second,two,made⟩ := bind_ok made
      cases made
      have tail := ih (fun b member => all b (List.mem_cons_of_mem _ member)) two
      exact links_append (links_after head rfl) tail

theorem target_links {lhsUses : List Use} {lhsCode : Gen Code} (function : funcTy.isFunc = true)
    (operand : GenLinks c lhsUses lhsCode) (made : genTarget c funcTy lhs lhsCode = .ok code) :
    Links c (match callee lhs with
      | some fn => [.call fn.name]
      | none => lhsUses ++ [.indirect funcTy]) code := by
  unfold genTarget at made
  cases direct : callee lhs with
  | some fn =>
    rw [direct] at made
    obtain ⟨f,numbered,made⟩ := bind_ok made
    cases made
    unfold funcIdx at numbered
    split at numbered
    · rename_i j known
      cases numbered
      exact .used ⟨f,known,rfl⟩ .done
    · cases numbered
  | none =>
    rw [direct] at made
    obtain ⟨first,one,made⟩ := bind_ok made
    cases made
    exact links_append (genExprAs_links operand first one) (.used ⟨function,rfl⟩ .done)

theorem ordinary_links {lhsUses : List Use} {lhsCode : Gen Code} {params : List Ty} {isVariadic : Bool} {returnTy : Ty}
    {retBuffer : Option Obj} (operand : GenLinks c lhsUses lhsCode) (all : ArgLinks c depth args)
    (made : (do
      let fixed ← genFixed params.length (generateArgs c depth args)
      let rest := (generateArgs c depth args).drop params.length
      if isVariadic then
        let size := alignTo (rest.length * 8) 16
        let stored ← genVariadic 0 rest
        let target ← genTarget c (.func returnTy params isVariadic) lhs lhsCode
        return retBufferCode c retBuffer ++ fixed ++ moveSp .sub size ++ stored ++ [.plain .globalGet] ++ target ++
          moveSp .add size ++ retBufferCode c retBuffer
      else if rest ≠ [] then .error "too many arguments"
      else
        let target ← genTarget c (.func returnTy params isVariadic) lhs lhsCode
        return retBufferCode c retBuffer ++ fixed ++ target ++ retBufferCode c retBuffer : Gen Code) = .ok code) :
    Links c (match callee lhs with
      | some fn => (argUses args).flatten ++ [.call fn.name]
      | none => (argUses args).flatten ++ lhsUses ++ [.indirect (.func returnTy params isVariadic)]) code := by
  obtain ⟨fixed,one,made⟩ := bind_ok made
  have head := links_before (retBuffer_quiet (c := c) retBuffer) (fixed_links all one)
  have later : (generateArgs c depth args).drop params.length = generateArgs c depth (args.drop params.length) := by
    simp [generateArgs_map]
  have whole : (argUses args).flatten =
      ((argUses args).take params.length).flatten ++ (argUses (args.drop params.length)).flatten := by
    rw [argUses_map (args.drop _),List.map_drop,← argUses_map,← List.flatten_append,List.take_append_drop]
  have joined : ∀ target, Links c (match callee lhs with
        | some fn => [.call fn.name]
        | none => lhsUses ++ [.indirect (.func returnTy params isVariadic)]) target →
      ∀ front, Links c (argUses args).flatten front → Links c (match callee lhs with
        | some fn => (argUses args).flatten ++ [.call fn.name]
        | none => (argUses args).flatten ++ lhsUses ++ [.indirect (.func returnTy params isVariadic)]) (front ++ target) := by
    intro target targetLinks front frontLinks
    cases direct : callee lhs with
    | some fn =>
      rw [direct] at targetLinks
      exact links_append frontLinks targetLinks
    | none =>
      rw [direct] at targetLinks
      simp only [List.append_assoc]
      exact links_append frontLinks targetLinks
  dsimp only at made
  split at made
  · rw [later] at made
    obtain ⟨stored,two,made⟩ := bind_ok made
    obtain ⟨target,three,made⟩ := bind_ok made
    cases made
    have rest := variadic_links (fun a member => all a (List.mem_of_mem_drop member)) two
    refine links_after (links_after (joined target (target_links rfl operand three) _ ?_) (moveSp_quiet .add _))
      (retBuffer_quiet retBuffer)
    rw [whole]
    exact links_after (links_append (links_after head (moveSp_quiet .sub _)) rest) rfl
  · split at made
    · cases made
    rename_i none_left
    obtain ⟨target,three,made⟩ := bind_ok made
    cases made
    have empty : args.drop params.length = [] := by
      have nothing : generateArgs c depth (args.drop params.length) = [] := later ▸ not_not.mp none_left
      rw [generateArgs_map] at nothing
      exact List.map_eq_nil_iff.mp nothing
    refine links_after (joined target (target_links rfl operand three) _ ?_) (retBuffer_quiet retBuffer)
    rw [whole,empty,argUses,List.flatten_nil,List.append_nil]
    exact head

theorem funcall_links {lhsUses : List Use} {lhsCode : Gen Code} {ty : Option Ty} {retBuffer : Option Obj}
    (operand : GenLinks c lhsUses lhsCode) (all : ArgLinks c depth args) :
    GenLinks c (funcallUses funcTy lhs lhsUses (argUses args))
      (genFuncall c ty funcTy lhs lhsCode (generateArgs c depth args) retBuffer) := by
  intro code made
  unfold genFuncall at made
  unfold funcallUses
  split at made
  · rename_i named
    simp only [named]
    obtain ⟨first,one,made⟩ := bind_ok made
    obtain ⟨converted,conversion,made⟩ := bind_ok made
    cases made
    exact links_after (links_after (dropped_links all one) rfl) (convert_quiet conversion)
  · rename_i named
    simp only [named]
    rcases args with _ | ⟨a,_ | ⟨b,rest⟩⟩
    · cases made
    · cases made
    · simp only [generateArgs] at made
      obtain ⟨first,one,made⟩ := bind_ok made
      obtain ⟨pages,two,made⟩ := bind_ok made
      obtain ⟨converted,conversion,made⟩ := bind_ok made
      cases made
      have left := all a (by simp) first one
      have right := genExprAs_links (all b (by simp)) pages two
      have dropped : Links c (uses a).value (first ++ drop) := links_after left rfl
      have both := links_append dropped right
      simp only [argUses,List.take_succ_cons,List.take_zero,List.flatten_cons,List.flatten_nil,List.append_nil]
      exact links_after (links_after both rfl) (convert_quiet conversion)
  · cases made
  · split at made
    · rename_i notSize notGrow _ _ _ _ _
      have linked := ordinary_links operand all made
      split
      · rename_i size
        exact absurd size notSize
      · rename_i grow
        exact absurd grow notGrow
      · exact linked
    · cases made

theorem notLvalue_links {us : List Use} : GenLinks c us notLvalue := fun _ made => nomatch made

theorem node_links (n : Node) (depth : Nat) :
    GenLinks c (uses n).addr (generate c depth n).addr ∧ GenLinks c (uses n).value (generate c depth n).value := by
  induction n generalizing depth with
  | nullExpr => exact ⟨notLvalue_links,fun _ made => by cases made; exact .done⟩
  | num ty number =>
    refine ⟨notLvalue_links,fun _ made => ?_⟩
    cases made
    refine links_quiet ?_
    unfold genNum
    split <;> rfl
  | var ty v => exact ⟨varAddr_links v,loaded_links (varAddr_links v)⟩
  | memzero v =>
    refine ⟨notLvalue_links,fun _ made => ?_⟩
    cases made
    exact links_quiet (quiet_append (quiet_append (quiet_append (fpPlus_quiet v.offset) rfl) rfl) rfl)
  | unary kind ty lhs ih =>
    cases kind with
    | neg => exact ⟨notLvalue_links,neg_links (ih depth).2⟩
    | not =>
      refine ⟨notLvalue_links,fun _ made => ?_⟩
      obtain ⟨first,one,made⟩ := bind_ok made
      cases made
      exact links_after (genCond_links (ih depth).2 first one) rfl
    | bitnot => exact ⟨notLvalue_links,bitnot_links (ih depth).2⟩
    | addr => exact ⟨notLvalue_links,(ih depth).1⟩
    | deref => exact ⟨genExprAs_links (ih depth).2,loaded_links (genExprAs_links (ih depth).2)⟩
    | cast =>
      refine ⟨notLvalue_links,fun _ made => ?_⟩
      cases ty with
      | none => cases made
      | some ty =>
        obtain ⟨first,one,made⟩ := bind_ok made
        obtain ⟨second,two,made⟩ := bind_ok made
        cases made
        exact links_after ((ih depth).2 first one) (cast_quiet two)
  | binary kind ty lhs rhs ihl ihr =>
    have ordinary : GenLinks c _ (genBinary kind ty lhs rhs _ _) := binary_links (ihl depth).2 (ihr depth).2
    cases kind with
    | logand =>
      refine ⟨notLvalue_links,fun _ made => ?_⟩
      obtain ⟨first,one,made⟩ := bind_ok made
      obtain ⟨_,_,made⟩ := bind_ok made
      obtain ⟨second,two,made⟩ := bind_ok made
      cases made
      refine links_append (genCond_links (ihl depth).2 first one) ?_
      have skipped : Links c [] (i32c 0) := links_quiet rfl
      have arms : Links c _ [.ifElse (some .i32) second (i32c 0)] :=
        links_if (genCond_links (ihr (depth + 1)).2 second two) skipped
      rwa [List.append_nil] at arms
    | logor =>
      refine ⟨notLvalue_links,fun _ made => ?_⟩
      obtain ⟨first,one,made⟩ := bind_ok made
      obtain ⟨_,_,made⟩ := bind_ok made
      obtain ⟨second,two,made⟩ := bind_ok made
      cases made
      refine links_append (genCond_links (ihl depth).2 first one) ?_
      have skipped : Links c [] (i32c 1) := links_quiet rfl
      exact links_if skipped (genCond_links (ihr (depth + 1)).2 second two)
    | comma =>
      constructor
      all_goals
        intro code made
        obtain ⟨first,one,made⟩ := bind_ok made
        obtain ⟨second,two,made⟩ := bind_ok made
        cases made
        have head := droppedValue_links (n := lhs) ((ihl depth).2 first one)
      · exact links_append head ((ihr depth).1 second two)
      · exact links_append head ((ihr depth).2 second two)
    | assign =>
      have value : GenLinks c _ (genAssign c ty lhs rhs _ _) := assign_links (ihl depth).1 (ihr depth).2
      refine ⟨?_,value⟩
      unfold generate uses
      dsimp only
      split
      · exact value
      · exact notLvalue_links
    | _ => exact ⟨notLvalue_links,ordinary⟩
  | member ty m lhs ih =>
    refine ⟨member_links (ih depth).1,?_⟩
    unfold generate uses
    dsimp only
    split
    · exact fun _ made => nomatch made
    · exact loaded_links (member_links (ih depth).1)
  | cond ty test yes no ihc ihy ihn =>
    have value : GenLinks c _ (genConditional ty depth test yes no _ _ _) :=
      conditional_links (ihc depth).2 (ihy (depth + 1)).2 (ihn (depth + 1)).2
    refine ⟨?_,value⟩
    unfold generate uses
    dsimp only
    split
    · exact value
    · exact notLvalue_links
  | funcall ty funcTy lhs args retBuffer ihl iha =>
    have value : GenLinks c _ (genFuncall c ty funcTy lhs _ _ retBuffer) :=
      funcall_links (ihl depth).2 fun a member => (iha a member depth).2
    refine ⟨?_,value⟩
    unfold generate uses
    dsimp only
    split
    · exact value
    · exact notLvalue_links
  | unsupported ty => exact ⟨notLvalue_links,fun _ made => nomatch made⟩

end

end SandboxStack.Cc
