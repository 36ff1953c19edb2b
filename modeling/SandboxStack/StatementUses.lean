import SandboxStack.FunctionUses

namespace SandboxStack.Cc
open Wasm

def FlowLinks (c : Context) (us : List Use) (body : Body) : Prop := Linked (Numbers c) us (flowPlains body)

-- Flow without calls.
def flowQuiet (body : Body) : Bool := (flowPlains body).all fun p => !p.refers

section
variable {c : Context} {us vs : List Use} {body rest : Body} {code : Code} {k k' : Control}

theorem flow_append (first : FlowLinks c us body) (second : FlowLinks c vs rest) : FlowLinks c (us ++ vs) (body ++ rest) := by
  unfold FlowLinks
  rw [flowPlains_append]
  exact linked_append first second

theorem flow_silent (silent : flowQuiet body = true) : FlowLinks c [] body := linked_quiet silent

theorem flow_before (body : Body) (silent : flowQuiet body = true) (second : FlowLinks c us rest) : FlowLinks c us (body ++ rest) :=
  flow_append (flow_silent silent) second

theorem flow_after (first : FlowLinks c us body) (rest : Body) (silent : flowQuiet rest = true) : FlowLinks c us (body ++ rest) := by
  have both := flow_append first (flow_silent (c := c) silent)
  rwa [List.append_nil] at both

theorem flow_one (links : Links c us code) : FlowLinks c us [.code code] := by
  have whole : flowPlains [.code code] = plains code := List.append_nil _
  unfold FlowLinks
  rw [whole]
  exact links

theorem quiet_flow (silent : quiet code = true) : flowQuiet [.code code] = true := by
  have whole : flowPlains [.code code] = plains code := List.append_nil _
  unfold flowQuiet
  rw [whole]
  exact silent

theorem flowQuiet_append (first : flowQuiet body = true) (second : flowQuiet rest = true) : flowQuiet (body ++ rest) = true := by
  unfold flowQuiet at first second ⊢
  rw [flowPlains_append,List.all_append,first,second]
  rfl

theorem blocks_quiet (labels : List String) : flowQuiet (labels.map fun _ => .block) = true := by
  induction labels with
  | nil => rfl
  | cons label rest ih => exact ih

theorem cases_quiet {wide : Bool} {scratch : Nat} {cases_ : List Case} (made : genCases wide scratch k cases_ = .ok body) :
    flowQuiet body = true := by
  induction cases_ generalizing body with
  | nil => cases made; rfl
  | cons one rest ih =>
    obtain ⟨target,_,made⟩ := bind_ok made
    obtain ⟨later,two,made⟩ := bind_ok made
    cases made
    have tested : quiet (localGet scratch ++ caseTest wide one) = true := by
      unfold caseTest
      split <;> split <;> rfl
    exact flowQuiet_append (flowQuiet_append (quiet_flow tested) rfl) (ih two)

theorem discarded_links {n : Node} {gen : Gen Code} (operand : GenLinks c us gen) (made : genDiscarded n gen = .ok body) :
    FlowLinks c us body := by
  obtain ⟨first,one,made⟩ := bind_ok made
  cases made
  exact flow_one (droppedValue_links (operand first one))

theorem loopTest_links {brk : String} {cond : Option Node} (made : genLoopTest c k brk cond = .ok body) :
    FlowLinks c (valueUses cond) body := by
  cases cond with
  | none => cases made; exact .done
  | some n =>
    obtain ⟨first,one,made⟩ := bind_ok made
    obtain ⟨target,_,made⟩ := bind_ok made
    cases made
    have tested : Links c (uses n).value (first ++ op .i32Eqz) :=
      links_after (genCond_links (node_links n k.depth).2 first one) rfl
    exact flow_after (flow_one tested) _ rfl

theorem loopStep_links {inc : Option Node} (made : genLoopStep c k inc = .ok body) : FlowLinks c (valueUses inc) body := by
  cases inc with
  | none => cases made; exact .done
  | some n => exact discarded_links (node_links n k.depth).2 made

theorem returned_links {n : Node} {gen : Gen Code} (operand : GenLinks c us gen) (made : genReturned c n gen = .ok code) :
    Links c us code := by
  obtain ⟨ty,_,made⟩ := bind_ok made
  split at made
  · obtain ⟨first,one,made⟩ := bind_ok made
    cases made
    exact links_after (links_after (links_before rfl (operand first one)) rfl) rfl
  · obtain ⟨first,one,made⟩ := bind_ok made
    cases made
    exact links_after (genExprAs_links operand first one) rfl

theorem stmts_links {stmts : List Stmt} (all : ∀ s ∈ stmts, ∀ (k k' : Control) (body : Body),
      genStmt c s k = .ok (body,k') → FlowLinks c (stmtUses s) body)
    (made : genStmts c stmts k = .ok (body,k')) : FlowLinks c (stmtsUses stmts) body := by
  induction stmts generalizing k body with
  | nil => cases made; exact .done
  | cons s rest ih =>
    obtain ⟨⟨first,middle⟩,one,made⟩ := bind_ok made
    obtain ⟨⟨second,last⟩,two,made⟩ := bind_ok made
    cases made
    have head := all s (List.mem_cons_self ..) _ _ _ one
    exact flow_append head (ih (fun t member => all t (List.mem_cons_of_mem _ member)) two)

theorem stmt_links (s : Stmt) (made : genStmt c s k = .ok (body,k')) : FlowLinks c (stmtUses s) body := by
  induction s generalizing k k' body with
  | block stmts ih => exact stmts_links (fun s member _ _ _ made => ih s member made) made
  | exprStmt lhs =>
    obtain ⟨first,one,made⟩ := bind_ok made
    cases made
    exact discarded_links (node_links lhs k.depth).2 one
  | ifThen cond yes ih =>
    obtain ⟨test,one,made⟩ := bind_ok made
    obtain ⟨inner,_,made⟩ := bind_ok made
    obtain ⟨⟨first,last⟩,two,made⟩ := bind_ok made
    cases made
    have head := flow_after (flow_one (genCond_links (node_links cond k.depth).2 test one)) [.ifThen] rfl
    exact flow_after (flow_append head (ih two)) _ rfl
  | ifElse cond yes no ihy ihn =>
    obtain ⟨test,one,made⟩ := bind_ok made
    obtain ⟨inner,_,made⟩ := bind_ok made
    obtain ⟨⟨first,middle⟩,two,made⟩ := bind_ok made
    obtain ⟨⟨second,last⟩,three,made⟩ := bind_ok made
    cases made
    have head := flow_after (flow_one (genCond_links (node_links cond k.depth).2 test one)) [.ifThen] rfl
    have arms := flow_append (flow_after (flow_append head (ihy two)) [.elseThen] rfl) (ihn three)
    exact flow_after arms _ rfl
  | forLoop init cond inc loop brk cont ihi ihb =>
    obtain ⟨⟨first,start⟩,one,made⟩ := bind_ok made
    obtain ⟨outer,_,made⟩ := bind_ok made
    obtain ⟨top,_,made⟩ := bind_ok made
    obtain ⟨test,two,made⟩ := bind_ok made
    obtain ⟨inner,_,made⟩ := bind_ok made
    obtain ⟨⟨second,last⟩,three,made⟩ := bind_ok made
    obtain ⟨step,four,made⟩ := bind_ok made
    obtain ⟨target,_,made⟩ := bind_ok made
    cases made
    have head := flow_append (flow_after (ihi one) [.block,.loop] rfl) (loopTest_links two)
    have middle := flow_append (flow_after head [.block] rfl) (ihb three)
    have whole := flow_append (flow_after middle [.close] rfl) (loopStep_links four)
    exact flow_after whole _ rfl
  | doWhile loop cond brk cont ih =>
    obtain ⟨outer,_,made⟩ := bind_ok made
    obtain ⟨top,_,made⟩ := bind_ok made
    obtain ⟨inner,_,made⟩ := bind_ok made
    obtain ⟨⟨first,last⟩,one,made⟩ := bind_ok made
    obtain ⟨test,two,made⟩ := bind_ok made
    obtain ⟨target,_,made⟩ := bind_ok made
    cases made
    have looped := flow_before [.block,.loop,.block] rfl (ih one)
    have tested := flow_one (genCond_links (node_links cond _).2 test two)
    have closed := flow_before [.close] rfl (flow_after tested [.brIf target,.close,.close] rfl)
    exact flow_append looped closed
  | switch cond body brk cases_ default ih =>
    obtain ⟨value,one,made⟩ := bind_ok made
    obtain ⟨scratch,_,made⟩ := bind_ok made
    dsimp only at made
    split at made
    · cases made
    obtain ⟨outer,_,made⟩ := bind_ok made
    obtain ⟨inner,_,made⟩ := bind_ok made
    obtain ⟨tests,two,made⟩ := bind_ok made
    obtain ⟨target,_,made⟩ := bind_ok made
    obtain ⟨⟨first,last⟩,three,made⟩ := bind_ok made
    obtain ⟨closed,_,made⟩ := bind_ok made
    cases made
    have head : Links c (uses cond).value (value ++ localSet scratch) := links_after ((node_links cond k.depth).2 value one) rfl
    have opened := flow_after (flow_after (flow_one head) [.block] rfl) _ (blocks_quiet (collectCases body))
    have tested := flow_after (flow_after opened _ (cases_quiet two)) [.br target] rfl
    exact flow_after (flow_append tested (ih three)) _ rfl
  | caseOf label lhs ih =>
    obtain ⟨closed,_,made⟩ := bind_ok made
    obtain ⟨⟨first,last⟩,one,made⟩ := bind_ok made
    cases made
    exact flow_before _ rfl (ih one)
  | goto label =>
    obtain ⟨target,_,made⟩ := bind_ok made
    cases made
    exact .done
  | label label lhs ih =>
    obtain ⟨closed,_,made⟩ := bind_ok made
    obtain ⟨⟨first,last⟩,one,made⟩ := bind_ok made
    cases made
    exact flow_before _ rfl (ih one)
  | ret lhs =>
    cases lhs with
    | none =>
      obtain ⟨target,_,made⟩ := bind_ok made
      cases made
      exact .done
    | some n =>
      obtain ⟨first,one,made⟩ := bind_ok made
      obtain ⟨target,_,made⟩ := bind_ok made
      cases made
      exact flow_after (flow_one (returned_links (node_links n k.depth).2 one)) _ rfl
  | unsupported => cases made

theorem spill_quiet {i : Nat} {params : List Obj} (made : spillParams c i params = .ok code) : quiet code = true := by
  induction params generalizing i code with
  | nil => cases made; rfl
  | cons p rest ih =>
    have head : quiet (fpPlus c p.offset ++ localGet i) = true := quiet_append (fpPlus_quiet p.offset) rfl
    unfold spillParams at made
    dsimp only at made
    split at made
    · obtain ⟨spilled,same,made⟩ := bind_ok made
      obtain ⟨later,two,made⟩ := bind_ok made
      cases same
      cases made
      exact quiet_append (quiet_append head rfl) (ih two)
    · obtain ⟨spilled,one,made⟩ := bind_ok made
      obtain ⟨later,two,made⟩ := bind_ok made
      cases made
      exact quiet_append (quiet_append head (store_quiet one)) (ih two)

theorem spillVaArea_quiet {i : Nat} {area : Option Obj} (made : spillVaArea c i area = .ok code) : quiet code = true := by
  cases area with
  | none => cases made
  | some v =>
    cases made
    exact quiet_append (quiet_append (fpPlus_quiet v.offset) rfl) rfl

theorem prologue_quiet (frameSize : Nat) : quiet (prologue c frameSize) = true := by
  unfold prologue
  split <;> rfl

theorem epilogue_quiet (frameSize : Nat) : quiet (epilogue c frameSize) = true := by
  unfold epilogue
  split <;> split <;> rfl

theorem params_quiet {fn : Global} (made : genParams c fn = .ok code) : quiet code = true := by
  obtain ⟨params,one,made⟩ := bind_ok made
  split at made
  · obtain ⟨area,two,made⟩ := bind_ok made
    cases made
    exact quiet_append (spill_quiet one) (spillVaArea_quiet two)
  · cases made
    exact spill_quiet one

-- The parts of a generated body.
theorem genBody_parts {fn : Global} (made : genBody c fn = .ok body) :
    ∃ first start inner last, Control.push (some ".ret") ⟨[],0⟩ = .ok first ∧
      first.pushAll (topLabels fn.body).reverse = .ok start ∧ genStmt c fn.body start = .ok (inner,last) ∧ last.depth = 1 ∧
      body = [.block] ++ (topLabels fn.body).map (fun _ => .block) ++ inner ++ [.close] := by
  unfold genBody at made
  dsimp only at made
  split at made
  · cases made
  obtain ⟨first,pushed,made⟩ := bind_ok made
  obtain ⟨start,opened,made⟩ := bind_ok made
  obtain ⟨⟨inner,last⟩,generated,made⟩ := bind_ok made
  dsimp only at made
  split at made
  · cases made
  rename_i balanced
  cases made
  exact ⟨first,start,inner,last,pushed,opened,generated,not_not.mp balanced,rfl⟩

theorem body_links {fn : Global} (made : genBody c fn = .ok body) : FlowLinks c (stmtUses fn.body) body := by
  obtain ⟨first,start,inner,last,_,_,generated,_,rfl⟩ := genBody_parts made
  have opened : flowQuiet ([.block] ++ (topLabels fn.body).map fun _ => .block) = true := blocks_quiet (topLabels fn.body)
  exact flow_after (flow_before _ opened (stmt_links fn.body generated)) _ rfl

theorem function_links {fn : Global} {out : FunctionBody} (made : genFunction c fn = .ok out) :
    FlowLinks c (stmtUses fn.body) out.body := by
  obtain ⟨⟨offsets,frameSize⟩,_,made⟩ := bind_ok made
  obtain ⟨params,one,made⟩ := bind_ok made
  obtain ⟨body,two,made⟩ := bind_ok made
  cases made
  have front := quiet_append (prologue_quiet (c := c) frameSize) (params_quiet one)
  exact flow_after (flow_before _ (quiet_flow front) (body_links two)) _ (quiet_flow (epilogue_quiet frameSize))

end

end SandboxStack.Cc
