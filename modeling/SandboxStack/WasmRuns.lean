import SandboxStack.OperandFrames

namespace SandboxStack.Wasm
open LinearMemory

def Flow.opens : Flow → Bool
  | .block | .loop | .ifThen => true
  | _ => false

-- What follows the `end` of the construct the body stands in, `depth`
-- constructs being open inside it.
def afterClose : Nat → Body → Body
  | _,[] => []
  | 0,.close :: rest => rest
  | depth+1,.close :: rest => afterClose depth rest
  | depth,i :: rest => afterClose (if i.opens then depth + 1 else depth) rest

-- The second arm of the `if` the body stands in.
def elseArm : Nat → Body → Option Body
  | _,[] => none
  | 0,.elseThen :: rest => some rest
  | 0,.close :: _ => none
  | depth+1,.close :: rest => elseArm depth rest
  | depth,i :: rest => elseArm (if i.opens then depth + 1 else depth) rest

-- A branch target: the operands below it, and where the execution resumes.
structure BranchTarget where
  stack : List Value
  resume : Body

structure Point where
  rest : Body
  labels : List BranchTarget
  state : State

def branchTo (n : Nat) (labels : List BranchTarget) (s : State) : Except Stop Point :=
  match labels[n]? with
  | some l => .ok ⟨l.resume,labels.drop (n + 1),{s with stack := l.stack}⟩
  | none => .error .stuck

def State.popCondition (s : State) : Except Stop (Bool × State) :=
  match s.stack with
  | .i32 c :: below => .ok (c ≠ 0,{s with stack := below})
  | _ => .error .stuck

def Flow.step (M : Machine) (i : Flow) (rest : Body) (labels : List BranchTarget) (s : State) : Except Stop Point :=
  match i with
  | .code c => do return ⟨rest,labels,← execAll M c s⟩
  | .block => .ok ⟨rest,⟨s.stack,afterClose 0 rest⟩ :: labels,s⟩
  | .loop => .ok ⟨rest,⟨s.stack,.loop :: rest⟩ :: labels,s⟩
  | .ifThen => do
    let (taken,s) ← s.popCondition
    if taken then return ⟨rest,⟨s.stack,afterClose 0 rest⟩ :: labels,s⟩
    else
      match elseArm 0 rest with
      | some arm => return ⟨arm,⟨s.stack,afterClose 0 rest⟩ :: labels,s⟩
      | none => return ⟨afterClose 0 rest,labels,s⟩
  | .elseThen => .ok ⟨afterClose 0 rest,labels.tail,s⟩
  | .close => .ok ⟨rest,labels.tail,s⟩
  | .br n => branchTo n labels s
  | .brIf n => do
    let (taken,s) ← s.popCondition
    if taken then branchTo n labels s else return ⟨rest,labels,s⟩

-- A run of at most `n` steps; one that has not ended stops like a callee that
-- does not return.
def runBody (M : Machine) : Nat → Point → Except Stop State
  | 0,_ => .error .callee
  | n+1,p =>
    match p.rest with
    | [] => .ok p.state
    | i :: rest => do runBody M n (← i.step M rest p.labels p.state)

inductive Visits (M : Machine) (start : Point) : Point → Prop
  | start : Visits M start start
  | step {p q : Point} {i : Flow} {rest : Body} (before : Visits M start p) (next : p.rest = i :: rest)
    (stepped : i.step M rest p.labels p.state = .ok q) : Visits M start q

section
variable {M : Machine} {B body rest : Body} {p q r : Point} {labels : List BranchTarget} {i : Flow} {s t : State} {n depth : Nat}

theorem afterClose_member (member : i ∈ afterClose depth body) : i ∈ body := by
  induction body generalizing depth with
  | nil =>
    cases depth <;> exact member
  | cons j rest ih =>
    unfold afterClose at member
    split at member
    all_goals simp_all
    · exact .inr (ih member)
    · exact .inr (ih member)

theorem elseArm_member {arm : Body} (found : elseArm depth body = some arm) (member : i ∈ arm) : i ∈ body := by
  induction body generalizing depth with
  | nil => cases depth <;> cases found
  | cons j rest ih =>
    unfold elseArm at found
    split at found
    all_goals simp_all
    · exact .inr (ih found)
    · exact .inr (ih found)

-- Everything that is still to be executed stands in the body.
structure Point.Within (B : Body) (p : Point) : Prop where
  rest : ∀ i ∈ p.rest, i ∈ B
  labels : ∀ l ∈ p.labels, ∀ i ∈ l.resume, i ∈ B

-- What the code between control instructions keeps, whatever the operands are.
structure Kept (M : Machine) (B : Body) (P : State → Prop) : Prop where
  stack : ∀ s stack, P s → P {s with stack}
  code : ∀ c, .code c ∈ B → ∀ s s', P s → execAll M c s = .ok s' → P s'

theorem branchTo_keeps {P : State → Prop} (kept : Kept M B P) (within : ∀ l ∈ labels, ∀ i ∈ l.resume, i ∈ B) (holds : P s)
    (jumped : branchTo n labels s = .ok q) : q.Within B ∧ P q.state := by
  unfold branchTo at jumped
  split at jumped
  · rename_i l found
    cases jumped
    refine ⟨⟨within l (List.mem_of_getElem? found),fun k member => within k (List.mem_of_mem_drop member)⟩,?_⟩
    exact kept.stack s l.stack holds
  · cases jumped

theorem popCondition_parts {taken : Bool} (popped : s.popCondition = .ok (taken,t)) : ∃ stack,t = {s with stack} := by
  unfold State.popCondition at popped
  split at popped
  · cases popped
    exact ⟨_,rfl⟩
  · cases popped

theorem step_keeps {P : State → Prop} (kept : Kept M B P) (within : p.Within B) (holds : P p.state) (next : p.rest = i :: rest)
    (stepped : i.step M rest p.labels p.state = .ok q) : q.Within B ∧ P q.state := by
  obtain ⟨present,labels⟩ := within
  rw [next] at present
  have later : ∀ j ∈ rest, j ∈ B := fun j member => present j (.tail _ member)
  have closed : ∀ j ∈ afterClose 0 rest, j ∈ B := fun j member => later j (afterClose_member member)
  have opened : ∀ (stack : List Value) (resume : Body),(∀ j ∈ resume, j ∈ B) →
      ∀ l ∈ (⟨stack,resume⟩ : BranchTarget) :: p.labels, ∀ j ∈ l.resume, j ∈ B := by
    intro stack resume inside l member
    rcases List.mem_cons.mp member with rfl | old
    · exact inside
    · exact labels l old
  have dropped : ∀ l ∈ p.labels.tail, ∀ j ∈ l.resume, j ∈ B := fun l member => labels l (List.mem_of_mem_tail member)
  cases i with
  | code c =>
    simp only [Flow.step] at stepped
    cases executed : execAll M c p.state with
    | error e =>
      rw [executed] at stepped
      cases stepped
    | ok s' =>
      rw [executed] at stepped
      cases stepped
      exact ⟨⟨later,labels⟩,kept.code c (present _ (.head _)) _ _ holds executed⟩
  | block =>
    cases stepped
    exact ⟨⟨later,opened _ _ closed⟩,holds⟩
  | loop =>
    cases stepped
    exact ⟨⟨later,opened _ _ present⟩,holds⟩
  | ifThen =>
    simp only [Flow.step] at stepped
    cases popped : p.state.popCondition with
    | error e =>
      rw [popped] at stepped
      cases stepped
    | ok condition =>
      obtain ⟨taken,s'⟩ := condition
      obtain ⟨stack,rfl⟩ := popCondition_parts popped
      have after := kept.stack p.state stack holds
      rw [popped] at stepped
      simp only [bind,Except.bind] at stepped
      split at stepped
      · cases stepped
        exact ⟨⟨later,opened _ _ closed⟩,after⟩
      · split at stepped
        · rename_i arm found
          cases stepped
          exact ⟨⟨fun j member => later j (elseArm_member found member),opened _ _ closed⟩,after⟩
        · cases stepped
          exact ⟨⟨closed,labels⟩,after⟩
  | elseThen =>
    cases stepped
    exact ⟨⟨closed,dropped⟩,holds⟩
  | close =>
    cases stepped
    exact ⟨⟨later,dropped⟩,holds⟩
  | br n => exact branchTo_keeps kept labels holds stepped
  | brIf n =>
    simp only [Flow.step] at stepped
    cases popped : p.state.popCondition with
    | error e =>
      rw [popped] at stepped
      cases stepped
    | ok condition =>
      obtain ⟨taken,s'⟩ := condition
      obtain ⟨stack,rfl⟩ := popCondition_parts popped
      have after := kept.stack p.state stack holds
      rw [popped] at stepped
      simp only [bind,Except.bind] at stepped
      split at stepped
      · exact branchTo_keeps kept labels after stepped
      · cases stepped
        exact ⟨⟨later,labels⟩,after⟩

theorem visits_keeps {P : State → Prop} (kept : Kept M B P) (within : p.Within B) (holds : P p.state) (visits : Visits M p q) :
    q.Within B ∧ P q.state := by
  induction visits with
  | start => exact ⟨within,holds⟩
  | step _ next stepped ih => exact step_keeps kept ih.1 ih.2 next stepped

-- A step before a run is part of the run.
theorem visits_before (next : p.rest = i :: rest) (stepped : i.step M rest p.labels p.state = .ok q) (visits : Visits M q r) :
    Visits M p r := by
  induction visits with
  | start => exact .step .start next stepped
  | step _ next' stepped' ih => exact .step ih next' stepped'

theorem visits_first (next : p.rest = i :: rest) (visits : Visits M p r) :
    r = p ∨ ∃ q,i.step M rest p.labels p.state = .ok q ∧ Visits M q r := by
  induction visits with
  | start => exact .inl rfl
  | step _ next' stepped' ih =>
    right
    rcases ih with rfl | ⟨q,stepped,after⟩
    · rw [next] at next'
      cases next'
      exact ⟨_,stepped',.start⟩
    · exact ⟨q,stepped,.step after next' stepped'⟩

theorem runBody_visits (ran : runBody M n p = .ok t) : ∃ q,Visits M p q ∧ q.rest = [] ∧ q.state = t := by
  induction n generalizing p with
  | zero => cases ran
  | succ n ih =>
    unfold runBody at ran
    split at ran
    · rename_i ended
      cases ran
      exact ⟨p,.start,ended,rfl⟩
    · rename_i i rest next
      cases stepped : i.step M rest p.labels p.state with
      | error e =>
        rw [stepped] at ran
        cases ran
      | ok q =>
        rw [stepped] at ran
        obtain ⟨r,visits,ended,same⟩ := ih ran
        exact ⟨r,visits_before next stepped visits,ended,same⟩

end

-- The code comes to an instruction in a state.
inductive Arrives (M : Machine) : Code → State → Plain → State → Prop
  | here {p : Plain} {rest : Code} {s : State} : Arrives M (.plain p :: rest) s p s
  | later {i : Instr} {rest : Code} {s s' t : State} {p : Plain} (first : i.exec M s = .ok s') (after : Arrives M rest s' p t) :
    Arrives M (i :: rest) s p t
  | yes {type : Option ValueType} {yes no rest : Code} {s t : State} {p : Plain} {c : U32} {below : List Value}
    (top : s.stack = .i32 c :: below) (taken : c ≠ 0) (after : Arrives M yes {s with stack := below} p t) :
    Arrives M (.ifElse type yes no :: rest) s p t
  | no {type : Option ValueType} {yes no rest : Code} {s t : State} {p : Plain} {below : List Value}
    (top : s.stack = .i32 0 :: below) (after : Arrives M no {s with stack := below} p t) :
    Arrives M (.ifElse type yes no :: rest) s p t

def Value.zero : ValueType → Value
  | .i32 => .i32 0
  | .i64 => .i64 0
  | .f32 => .f32 0
  | .f64 => .f64 0

structure FunctionCode where
  params : Nat
  locals : List ValueType
  hasResult : Bool
  body : Body

def localValue (params : List Value) (locals : List ValueType) (i : Nat) : Value :=
  (params[i]?).getD (((locals[i - params.length]?).map Value.zero).getD (.i32 0))

def FunctionCode.enter (f : FunctionCode) (s : State) : Except Stop State :=
  if s.stack.length < f.params then .error .stuck
  else .ok {s with stack := [],locals := localValue (s.stack.take f.params).reverse f.locals}

def FunctionCode.leave (f : FunctionCode) (s t : State) : Except Stop State :=
  if f.hasResult then
    match t.stack with
    | v :: _ => .ok {s with stack := v :: s.stack.drop f.params,sp := t.sp,memory := t.memory}
    | [] => .error .stuck
  else .ok {s with stack := s.stack.drop f.params,sp := t.sp,memory := t.memory}

-- The host sees the arguments and the memory; the stack pointer is no export.
inductive Callee where
  | host (params : Nat) (call : List Value → Memory → Except Stop (Option Value × Memory))
  | defined (f : FunctionCode)

structure WasmInstance where
  floats : FloatUnit
  funcs : Nat → Option Callee
  table : Nat → Option Nat
  typed : Nat → Nat → Bool

namespace WasmInstance

def direct (I : WasmInstance) (run : FunctionCode → State → Except Stop State) (i : Nat) (s : State) : Except Stop State :=
  match I.funcs i with
  | some (.host params call) =>
    if s.stack.length < params then .error .stuck
    else do
      let (r,memory) ← call (s.stack.take params).reverse s.memory
      return {s with stack := r.toList ++ s.stack.drop params,memory}
  | some (.defined f) => do f.leave s (← run f (← f.enter s))
  | none => .error .stuck

-- The function that a call through the table reaches.
def target (I : WasmInstance) (t : Nat) (s : State) : Except Stop (Nat × State) :=
  match s.stack with
  | .i32 v :: below =>
    match I.table v.toNat with
    | some i => if I.typed i t then .ok (i,{s with stack := below}) else .error .callee
    | none => .error .callee
  | _ => .error .stuck

def machine (I : WasmInstance) : Nat → Machine
  | 0 => ⟨I.floats,fun _ _ => .error .callee,fun _ _ => .error .callee⟩
  | n+1 =>
    let run := fun (f : FunctionCode) s => runBody (I.machine n) n ⟨f.body,[],s⟩
    ⟨I.floats,I.direct run,fun t s => do
      let (i,s) ← I.target t s
      I.direct run i s⟩

end WasmInstance

section
variable {I : WasmInstance} {f : FunctionCode} {s s' t : State} {i k n : Nat}
  {run : FunctionCode → State → Except Stop State}

theorem enter_parts (entered : f.enter s = .ok t) : f.params ≤ s.stack.length ∧ t.sp = s.sp := by
  unfold FunctionCode.enter at entered
  split at entered
  · cases entered
  · rename_i enough
    cases entered
    exact ⟨Nat.not_lt.mp enough,rfl⟩

theorem leave_sp (left : f.leave s t = .ok s') : s'.sp = t.sp := by
  unfold FunctionCode.leave at left
  split at left
  · split at left <;> cases left
    rfl
  · cases left
    rfl

theorem target_sp (reached : I.target k s = .ok (i,t)) : t.sp = s.sp := by
  unfold WasmInstance.target at reached
  split at reached
  · split at reached
    · split at reached <;> cases reached
      rfl
    · cases reached
  · cases reached

-- What a call does: the host is given the arguments, or a function is entered,
-- run and left.
theorem direct_cases (called : I.direct run i s = .ok s') :
    (∃ params call r memory,I.funcs i = some (.host params call) ∧ params ≤ s.stack.length ∧
      call (s.stack.take params).reverse s.memory = .ok (r,memory) ∧
      s' = {s with stack := r.toList ++ s.stack.drop params,memory}) ∨
    ∃ f inner ended,I.funcs i = some (.defined f) ∧ f.enter s = .ok inner ∧ run f inner = .ok ended ∧ f.leave s ended = .ok s' := by
  unfold WasmInstance.direct at called
  split at called
  · rename_i params call found
    split at called
    · cases called
    · rename_i enough
      cases answered : call (s.stack.take params).reverse s.memory with
      | error e =>
        rw [answered] at called
        cases called
      | ok answer =>
        rw [answered] at called
        cases called
        exact .inl ⟨params,call,_,_,found,Nat.not_lt.mp enough,answered,rfl⟩
  · rename_i f found
    cases entered : f.enter s with
    | error e =>
      rw [entered] at called
      cases called
    | ok inner =>
      rw [entered] at called
      cases ran : run f inner with
      | error e =>
        simp only [bind,Except.bind,ran] at called
        cases called
      | ok ended =>
        simp only [bind,Except.bind,ran] at called
        exact .inr ⟨f,inner,ended,found,entered,ran,called⟩
  · cases called

theorem indirect_cases (called : (I.machine (n + 1)).indirect k s = .ok s') :
    ∃ i t,I.target k s = .ok (i,t) ∧ (I.machine (n + 1)).direct i t = .ok s' := by
  simp only [WasmInstance.machine] at called
  cases reached : I.target k s with
  | error e =>
    rw [reached] at called
    cases called
  | ok found =>
    rw [reached] at called
    exact ⟨found.1,found.2,rfl,called⟩

-- A callee is entered with its arguments only, and its caller's locals come back.
theorem direct_local (i : Nat) : Local (I.direct run i) := by
  intro s s' below locals called
  rcases direct_cases called with ⟨params,call,r,memory,found,enough,answered,rfl⟩ | ⟨f,inner,ended,found,entered,ran,left⟩
  · have longer : ¬(s.stack ++ below).length < params := by
      rw [List.length_append]
      omega
    unfold WasmInstance.direct
    rw [found]
    dsimp only
    rw [if_neg longer,List.take_append_of_le_length enough,List.drop_append_of_le_length enough,answered]
    simp [bind,Except.bind,pure,Except.pure]
  · have enough := (enter_parts entered).1
    have longer : ¬(s.stack ++ below).length < f.params := by
      rw [List.length_append]
      omega
    have entered' : f.enter ⟨s.stack ++ below,locals,s.sp,s.memory⟩ = .ok inner := by
      rw [← entered]
      unfold FunctionCode.enter
      rw [if_neg longer,if_neg (Nat.not_lt.mpr enough),List.take_append_of_le_length enough]
    have left' : f.leave ⟨s.stack ++ below,locals,s.sp,s.memory⟩ ended = .ok ⟨s'.stack ++ below,locals,s'.sp,s'.memory⟩ := by
      unfold FunctionCode.leave at left ⊢
      dsimp only
      rw [List.drop_append_of_le_length enough]
      split at left
      · rename_i result
        rw [if_pos result]
        split at left
        · cases left
          rfl
        · cases left
      · rename_i bare
        rw [if_neg bare]
        cases left
        rfl
    unfold WasmInstance.direct
    rw [found]
    dsimp only
    rw [entered']
    simp only [bind,Except.bind,ran,left']

theorem machine_local : CallsLocal (I.machine n) := by
  cases n with
  | zero => exact ⟨fun _ _ _ _ _ => nofun,fun _ _ _ _ _ => nofun⟩
  | succ n =>
    refine ⟨direct_local,fun k s s' below locals called => ?_⟩
    obtain ⟨i,t,reached,called⟩ := indirect_cases called
    have inner := direct_local i t s' below locals called
    have reached' : I.target k ⟨s.stack ++ below,locals,s.sp,s.memory⟩ = .ok (i,⟨t.stack ++ below,locals,t.sp,t.memory⟩) := by
      unfold WasmInstance.target at reached ⊢
      split at reached
      · rename_i v rest top
        dsimp only
        rw [top]
        dsimp only [List.cons_append]
        split at reached
        · split at reached
          · rename_i typed
            cases reached
            rw [if_pos typed]
          · cases reached
        · cases reached
      · cases reached
    simp only [WasmInstance.machine]
    rw [reached']
    exact inner

theorem machine_locals : LocalsKept (I.machine n) := machine_local.kept

end

-- A function that has been entered, with the state on entry.
structure Activation where
  function : FunctionCode
  state : State

def Activation.start (a : Activation) : Point := ⟨a.function.body,[],a.state⟩

-- The activations that are live together, the innermost first. The outermost
-- is entered by the host, with the stack pointer at `sp`.
inductive Live (I : WasmInstance) (n : Nat) (sp : U32) : List Activation → Prop
  | entered {i : Nat} {f : FunctionCode} {s inner : State} (function : I.funcs i = some (.defined f)) (pointer : s.sp = sp)
    (enter : f.enter s = .ok inner) : Live I n sp [⟨f,inner⟩]
  | call {a : Activation} {outer : List Activation} {p : Point} {c : Code} {rest : Body} {i : Nat} {f : FunctionCode}
    {t inner : State} (live : Live I n sp (a :: outer)) (reached : Visits (I.machine n) a.start p)
    (next : p.rest = .code c :: rest) (arrives : Arrives (I.machine n) c p.state (.call i) t)
    (function : I.funcs i = some (.defined f)) (enter : f.enter t = .ok inner) : Live I n sp (⟨f,inner⟩ :: a :: outer)
  | indirect {a : Activation} {outer : List Activation} {p : Point} {c : Code} {rest : Body} {i k : Nat} {f : FunctionCode}
    {t s inner : State} (live : Live I n sp (a :: outer)) (reached : Visits (I.machine n) a.start p)
    (next : p.rest = .code c :: rest) (arrives : Arrives (I.machine n) c p.state (.callIndirect k) t)
    (target : I.target k t = .ok (i,s)) (function : I.funcs i = some (.defined f)) (enter : f.enter s = .ok inner) :
    Live I n sp (⟨f,inner⟩ :: a :: outer)

end SandboxStack.Wasm
