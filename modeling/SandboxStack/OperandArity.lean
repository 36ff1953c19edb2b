import SandboxStack.WasmRuns
import SandboxStack.WasmTyping

namespace SandboxStack.Wasm
open LinearMemory

-- A step that takes the operands of a function type and leaves as many as its results.
def TakesLeaves (f : FuncType) (step : State → Except Stop State) : Prop :=
  ∀ s s' taken below,step s = .ok s' → s.stack = taken ++ below → taken.length = f.params.length →
    ∃ left,s'.stack = left ++ below ∧ left.length = f.results.length

structure CallsArity (G : Typing) (M : Machine) : Prop where
  direct : ∀ i f, G.funcs i = some f → TakesLeaves f (M.direct i)
  indirect : ∀ t f, G.types t = some f → TakesLeaves ⟨f.params ++ [.i32],f.results⟩ (M.indirect t)

-- What a check says of the number of operands is so in every run.
def KeepsArity (check : List ValueType → Option (List ValueType)) (step : State → Except Stop State) : Prop :=
  ∀ types types' s s' taken below,check types = some types' → step s = .ok s' → s.stack = taken ++ below →
    taken.length = types.length → ∃ left,s'.stack = left ++ below ∧ left.length = types'.length

section
variable {G : Typing} {M : Machine} {code : Code} {p : Plain} {f : FuncType} {s s' : State}
  {types types' : List ValueType} {taken below rest : List Value}

theorem below_drop {n : Nat} (split : taken ++ below = rest) (enough : taken.length = n) : below = rest.drop n := by
  rw [← split,List.drop_left' enough]

theorem bound_top {α : Type} {x : Except Stop α} {g : α → Value} {stack' : List Value}
    (evaluated : (x >>= fun v => pure (g v :: rest)) = .ok stack') : ∃ v,stack' = v :: rest := by
  cases x with
  | error e => cases evaluated
  | ok v =>
    cases evaluated
    exact ⟨g v,rfl⟩

theorem numeric_arity {F : FloatUnit} {o : NumericOp} {stack' : List Value} (evaluated : o.eval F (taken ++ below) = .ok stack')
    (enough : taken.length = o.type.params.length) : ∃ v,stack' = v :: below := by
  unfold NumericOp.eval at evaluated
  split at evaluated
  all_goals first
    | (cases evaluated
       done)
    | skip
  all_goals
    rename_i split
    have same := below_drop split enough
    dsimp only [NumericOp.type,List.length_cons,List.length_nil,List.drop] at same
    rw [same]
    first
      | exact bound_top evaluated
      | (cases evaluated
         exact ⟨_,rfl⟩)

theorem numeric_results (o : NumericOp) : o.type.results.length = 1 := by
  cases o <;> rfl

theorem plain_takes (calls : CallsArity G M) (known : p.type G = some f) : TakesLeaves f (p.exec M) := by
  intro s s' taken below ran split enough
  obtain ⟨stack,locals,sp,memory⟩ := s
  dsimp only at split
  subst split
  cases p with
  | drop => cases known
  | call i => exact calls.direct i f known _ _ _ _ ran rfl enough
  | callIndirect t =>
    obtain ⟨entry,found,rfl⟩ := Option.map_eq_some_iff.mp known
    exact calls.indirect t entry found _ _ _ _ ran rfl enough
  | i32Const | i64Const | f32Const | f64Const | globalGet | memorySize =>
    cases known
    cases ran
    obtain rfl := List.length_eq_zero_iff.mp enough
    exact ⟨[_],rfl,rfl⟩
  | localGet i =>
    obtain ⟨t,_,rfl⟩ := Option.map_eq_some_iff.mp known
    cases ran
    obtain rfl := List.length_eq_zero_iff.mp enough
    exact ⟨[_],rfl,rfl⟩
  | localSet i =>
    obtain ⟨t,_,rfl⟩ := Option.map_eq_some_iff.mp known
    unfold Plain.exec at ran
    dsimp only at ran
    split at ran <;> cases ran
    rename_i top
    exact ⟨[],(below_drop top enough).symm,rfl⟩
  | localTee i =>
    obtain ⟨t,_,rfl⟩ := Option.map_eq_some_iff.mp known
    unfold Plain.exec at ran
    dsimp only at ran
    split at ran <;> cases ran
    exact ⟨taken,rfl,enough⟩
  | globalSet =>
    cases known
    unfold Plain.exec at ran
    dsimp only at ran
    split at ran <;> cases ran
    rename_i top
    exact ⟨[],(below_drop top enough).symm,rfl⟩
  | load o align =>
    unfold Plain.type at known
    dsimp only at known
    split at known <;> cases known
    unfold Plain.exec fetched at ran
    dsimp only at ran
    split at ran
    · rename_i top
      split at ran <;> cases ran
      exact ⟨[_],congrArg _ (below_drop top enough).symm,rfl⟩
    · cases ran
  | store o align =>
    unfold Plain.type at known
    dsimp only at known
    split at known <;> cases known
    unfold Plain.exec stored at ran
    dsimp only at ran
    split at ran
    · rename_i top
      split at ran <;> cases ran
      exact ⟨[],(below_drop top enough).symm,rfl⟩
    · cases ran
  | memoryGrow =>
    cases known
    unfold Plain.exec grown at ran
    dsimp only at ran
    split at ran
    · rename_i top
      cases ran
      split <;> exact ⟨[_],congrArg _ (below_drop top enough).symm,rfl⟩
    · cases ran
  | memoryCopy | memoryFill =>
    cases known
    unfold Plain.exec copied filled at ran
    dsimp only at ran
    split at ran
    · rename_i top
      split at ran <;> cases ran
      exact ⟨[],(below_drop top enough).symm,rfl⟩
    · cases ran
  | numeric o =>
    cases known
    unfold Plain.exec at ran
    dsimp only at ran
    split at ran
    · rename_i evaluated
      cases ran
      obtain ⟨v,rfl⟩ := numeric_arity evaluated enough
      exact ⟨[v],rfl,(numeric_results o).symm⟩
    · cases ran

theorem popAll_parts {expected : List ValueType} (popped : popAll expected types = some types') : types = expected ++ types' := by
  induction expected generalizing types with
  | nil =>
    cases popped
    rfl
  | cons t expected ih =>
    cases types with
    | nil => cases popped
    | cons u types =>
      simp only [popAll] at popped
      split at popped
      · rename_i same
        rw [same,ih popped]
        rfl
      · cases popped

theorem plain_arity (calls : CallsArity G M) (p : Plain) : KeepsArity (p.check G) (p.exec M) := by
  intro types types' s s' taken below checked ran split enough
  have general : ((do (← p.type G).apply types) = some types') →
      ∃ left,s'.stack = left ++ below ∧ left.length = types'.length := by
    intro checked
    obtain ⟨f,known,applied⟩ := Option.bind_eq_some_iff.mp checked
    obtain ⟨others,popped,rfl⟩ := Option.map_eq_some_iff.mp applied
    obtain rfl := popAll_parts popped
    rw [List.length_append,List.length_reverse] at enough
    have apart : s.stack = taken.take f.params.length ++ (taken.drop f.params.length ++ below) := by
      rw [split,← List.append_assoc,List.take_append_drop]
    obtain ⟨left,after,count⟩ := plain_takes calls known _ _ _ _ ran apart (by rw [List.length_take]; omega)
    refine ⟨left ++ taken.drop f.params.length,by rw [after,List.append_assoc],?_⟩
    rw [List.length_append,List.length_append,List.length_reverse,List.length_drop,count]
    omega
  cases p <;> try exact general checked
  cases types with
  | nil => cases checked
  | cons t types =>
    cases checked
    cases taken with
    | nil => cases enough
    | cons v taken =>
      unfold Plain.exec at ran
      dsimp only at ran
      rw [split] at ran
      cases ran
      exact ⟨taken,rfl,Nat.succ.inj enough⟩

mutual

theorem instr_arity (calls : CallsArity G M) : ∀ i : Instr, KeepsArity (i.check G) (i.exec M)
  | .plain p => plain_arity calls p
  | .ifElse r yes no => by
    intro types types' s s' taken below checked ran split enough
    rcases types with _ | ⟨u,types⟩
    · cases checked
    cases u <;> try cases checked
    rw [ifElse_check] at checked
    split at checked
    · rename_i arms
      cases checked
      cases taken with
      | nil => cases enough
      | cons v taken =>
        have arm : ∀ code, KeepsArity (checkAll G code) (execAll M code) → checkAll G code [] = some r.toList →
            execAll M code {s with stack := taken ++ below} = .ok s' →
              ∃ left,s'.stack = left ++ below ∧ left.length = (r.toList ++ types).length := by
          intro code keeps valid ran
          obtain ⟨left,after,count⟩ := keeps [] _ _ _ [] (taken ++ below) valid ran rfl rfl
          refine ⟨left ++ taken,by rw [after,List.append_assoc],?_⟩
          rw [List.length_append,List.length_append,count,Nat.succ.inj enough]
        rw [Instr.exec,split] at ran
        cases v with
        | i32 word =>
          dsimp only [List.cons_append] at ran
          split at ran
          · exact arm yes (checked_arity calls yes) arms.1 ran
          · exact arm no (checked_arity calls no) arms.2 ran
        | _ => cases ran
    · cases checked

theorem checked_arity (calls : CallsArity G M) : ∀ code : Code, KeepsArity (checkAll G code) (execAll M code)
  | [] => by
    intro types types' s s' taken below checked ran split enough
    cases checked
    cases ran
    exact ⟨taken,split,enough⟩
  | i :: rest => by
    intro types types' s s' taken below checked ran split enough
    obtain ⟨t,first,second⟩ := execAll_parts ran
    rw [checkAll_cons] at checked
    cases one : i.check G types with
    | none =>
      rw [one] at checked
      cases checked
    | some middle =>
      rw [one] at checked
      obtain ⟨left,after,count⟩ := instr_arity calls i _ _ _ _ _ _ one first split enough
      exact checked_arity calls rest _ _ _ _ _ _ checked second after count

end

-- Code that pushes one operand leaves it on the stack it was started on.
theorem pushes_one {t : ValueType} (calls : CallsArity G M) (pushes : Pushes G code [t]) (ran : execAll M code s = .ok s') :
    ∃ v,s'.stack = v :: s.stack := by
  obtain ⟨left,after,count⟩ := checked_arity calls code [] [t] s s' [] s.stack pushes ran rfl rfl
  obtain ⟨v,rfl⟩ := List.length_eq_one_iff.mp count
  exact ⟨v,after⟩

end

-- The types of an instance are those of its functions.
structure Entries (G : Typing) (I : WasmInstance) : Prop where
  host : ∀ i f params call, G.funcs i = some f → I.funcs i = some (.host params call) →
    params = f.params.length ∧ ∀ args m r m', call args m = .ok (r,m') → r.toList.length = f.results.length
  defined : ∀ i f g, G.funcs i = some f → I.funcs i = some (.defined g) →
    g.params = f.params.length ∧ (if g.hasResult then 1 else 0) = f.results.length
  typed : ∀ t f i, G.types t = some f → I.typed i t = true → G.funcs i = some f

section
variable {G : Typing} {I : WasmInstance} {run : FunctionCode → State → Except Stop State}

theorem direct_takes (entries : Entries G I) (i : Nat) (f : FuncType) (known : G.funcs i = some f) :
    TakesLeaves f (I.direct run i) := by
  intro s s' taken below called split enough
  rcases direct_cases called with ⟨params,call,r,memory,found,_,answered,rfl⟩ | ⟨g,inner,ended,found,_,_,left⟩
  · obtain ⟨same,results⟩ := entries.host i f params call known found
    exact ⟨r.toList,by rw [split,List.drop_left' (enough.trans same.symm)],results _ _ _ _ answered⟩
  · obtain ⟨same,results⟩ := entries.defined i f g known found
    unfold FunctionCode.leave at left
    rw [split,List.drop_left' (enough.trans same.symm)] at left
    split at left
    · rename_i result
      rw [if_pos result] at results
      split at left <;> cases left
      exact ⟨[_],rfl,results⟩
    · rename_i bare
      rw [if_neg bare] at results
      cases left
      exact ⟨[],rfl,results⟩

theorem machine_arity (entries : Entries G I) (n : Nat) : CallsArity G (I.machine n) := by
  cases n with
  | zero =>
    constructor
    all_goals
      intro _ _ _ _ _ _ _ called
      cases called
  | succ n =>
    refine ⟨direct_takes entries,fun t f known s s' taken below called split enough => ?_⟩
    obtain ⟨i,inner,reached,called⟩ := indirect_cases called
    cases taken with
    | nil => rw [List.length_append] at enough; cases enough
    | cons v taken =>
      rw [List.length_append] at enough
      unfold WasmInstance.target at reached
      rw [split] at reached
      cases v with
      | i32 word =>
        dsimp only [List.cons_append] at reached
        split at reached
        · split at reached
          · rename_i typed
            cases reached
            exact direct_takes entries i f (entries.typed t f i known typed) _ _ _ _ called rfl (Nat.succ.inj enough)
          · cases reached
        · cases reached
      | _ => cases reached

end

end SandboxStack.Wasm
