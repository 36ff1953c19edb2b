import SandboxStack.WasmCode

namespace SandboxStack.Wasm
open LinearMemory

-- A call does not touch the locals of its caller.
structure LocalsKept (M : Machine) : Prop where
  direct : ∀ i s s', M.direct i s = .ok s' → s'.locals = s.locals
  indirect : ∀ t s s', M.indirect t s = .ok s' → s'.locals = s.locals

theorem execAll_parts {M : Machine} {i : Instr} {rest : Code} {s s' : State} (executed : execAll M (i :: rest) s = .ok s') :
    ∃ t,i.exec M s = .ok t ∧ execAll M rest t = .ok s' := by
  rw [execAll] at executed
  split at executed
  · exact ⟨_,‹_›,executed⟩
  · cases executed

theorem append_parts {M : Machine} {first rest : Code} {s s' : State} (executed : execAll M (first ++ rest) s = .ok s') :
    ∃ t,execAll M first s = .ok t ∧ execAll M rest t = .ok s' := by
  rw [execAll_append] at executed
  cases head : execAll M first s with
  | error e =>
    rw [head] at executed
    cases executed
  | ok t =>
    rw [head] at executed
    exact ⟨t,rfl,executed⟩

-- Instructions that touch neither the locals nor the stack pointer.
def Plain.quiet : Plain → Bool
  | .localSet _ | .localTee _ | .globalSet | .call _ | .callIndirect _ => false
  | _ => true

theorem quiet_kept {M : Machine} {p : Plain} {s s' : State} (quiet : p.quiet = true) (executed : p.exec M s = .ok s') :
    s'.locals = s.locals ∧ s'.sp = s.sp := by
  cases p
  case localSet | localTee | globalSet | call | callIndirect => cases quiet
  case i32Const | i64Const | f32Const | f64Const | localGet | globalGet | memorySize =>
    cases executed
    exact ⟨rfl,rfl⟩
  all_goals
    unfold Plain.exec at executed
    dsimp only at executed
    split at executed
    rotate_left
    · cases executed
  -- drop, load, store, memory.grow, memory.copy, memory.fill and the operators, in this order
  · cases executed
    exact ⟨rfl,rfl⟩
  · unfold fetched at executed
    split at executed <;> cases executed
    exact ⟨rfl,rfl⟩
  · unfold stored at executed
    split at executed <;> cases executed
    exact ⟨rfl,rfl⟩
  · cases executed
    unfold grown
    split <;> exact ⟨rfl,rfl⟩
  · unfold copied at executed
    split at executed <;> cases executed
    exact ⟨rfl,rfl⟩
  · unfold filled at executed
    split at executed <;> cases executed
    exact ⟨rfl,rfl⟩
  · cases executed
    exact ⟨rfl,rfl⟩

-- Code that works on the operand stack and the memory only, and has no branches.
def Instr.bare : Instr → Bool
  | .plain (.localGet _) | .plain (.localSet _) | .plain (.localTee _) | .plain .globalSet => false
  | .plain _ => true
  | .ifElse _ _ _ => false

-- What a step needs is on top of the stack: what is below stays, and the locals do.
def Local (step : State → Except Stop State) : Prop :=
  ∀ s s' below locals,step s = .ok s' →
    step ⟨s.stack ++ below,locals,s.sp,s.memory⟩ = .ok ⟨s'.stack ++ below,locals,s'.sp,s'.memory⟩

structure CallsLocal (M : Machine) : Prop where
  direct : ∀ i, Local (M.direct i)
  indirect : ∀ t, Local (M.indirect t)

theorem local_kept {step : State → Except Stop State} {s s' : State} (own : Local step) (stepped : step s = .ok s') :
    s'.locals = s.locals := by
  have again := own s s' [] s.locals stepped
  rw [List.append_nil,stepped] at again
  have same := congrArg State.locals (Except.ok.inj again)
  exact same

theorem CallsLocal.kept {M : Machine} (calls : CallsLocal M) : LocalsKept M :=
  ⟨fun i _ _ => local_kept (calls.direct i),fun t _ _ => local_kept (calls.indirect t)⟩

section
variable {M : Machine} {p : Plain} {i : Instr} {code : Code} {below stack stack' : List Value}

theorem bound_below {α : Type} {x : Except Stop α} {g : α → Value} (evaluated : (x >>= fun v => pure (g v :: stack)) = .ok stack') :
    (x >>= fun v => pure (g v :: (stack ++ below))) = .ok (stack' ++ below) := by
  cases x with
  | error e => cases evaluated
  | ok v =>
    cases evaluated
    rfl

theorem numeric_below {F : FloatUnit} {o : NumericOp} (evaluated : o.eval F stack = .ok stack') :
    o.eval F (stack ++ below) = .ok (stack' ++ below) := by
  unfold NumericOp.eval at evaluated
  split at evaluated
  all_goals first
    | exact bound_below evaluated
    | (cases evaluated
       done)
    | (cases evaluated
       rfl)

theorem plain_local (calls : CallsLocal M) (bare : (Instr.plain p).bare = true) : Local (p.exec M) := by
  intro s s' below locals executed
  cases p with
  | localGet | localSet | localTee | globalSet => cases bare
  | call i => exact calls.direct i s s' below locals executed
  | callIndirect t => exact calls.indirect t s s' below locals executed
  | i32Const | i64Const | f32Const | f64Const | globalGet | memorySize =>
    cases executed
    rfl
  | numeric o =>
    unfold Plain.exec at executed ⊢
    dsimp only at executed ⊢
    split at executed
    · rename_i evaluated
      cases executed
      rw [numeric_below evaluated]
    · cases executed
  | drop =>
    obtain ⟨stack,_,sp,memory⟩ := s
    unfold Plain.exec at executed ⊢
    dsimp only at executed ⊢
    split at executed <;> cases executed
    rfl
  | memoryGrow =>
    obtain ⟨stack,_,sp,memory⟩ := s
    unfold Plain.exec grown at executed ⊢
    dsimp only at executed ⊢
    split at executed
    · dsimp only [List.cons_append]
      split at executed
      all_goals
        cases executed
        rfl
    · cases executed
  | load o align =>
    obtain ⟨stack,_,sp,memory⟩ := s
    unfold Plain.exec fetched at executed ⊢
    dsimp only at executed ⊢
    split at executed
    · dsimp only [List.cons_append]
      split at executed <;> cases executed
      rfl
    · cases executed
  | store o align =>
    obtain ⟨stack,_,sp,memory⟩ := s
    unfold Plain.exec stored at executed ⊢
    dsimp only at executed ⊢
    split at executed
    · dsimp only [List.cons_append]
      split at executed <;> cases executed
      rfl
    · cases executed
  | memoryCopy | memoryFill =>
    obtain ⟨stack,_,sp,memory⟩ := s
    unfold Plain.exec copied filled at executed ⊢
    dsimp only at executed ⊢
    split at executed
    · dsimp only [List.cons_append]
      split at executed <;> cases executed
      rename_i inside
      rw [if_pos inside]
    · cases executed

theorem bare_local (calls : CallsLocal M) (bare : code.all Instr.bare = true) : Local (execAll M code) := by
  induction code with
  | nil =>
    intro s s' below locals executed
    cases executed
    rfl
  | cons i rest ih =>
    intro s s' below locals executed
    rw [List.all_cons,Bool.and_eq_true] at bare
    obtain ⟨t,first,after⟩ := execAll_parts executed
    cases i with
    | ifElse => cases bare.1
    | plain p =>
      have one := plain_local calls bare.1 s t below locals first
      have more := ih bare.2 t s' below locals after
      rw [plain_cons,one]
      exact more

end

end SandboxStack.Wasm
