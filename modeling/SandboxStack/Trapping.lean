import Mathlib

namespace SandboxStack.Trapping
variable {ε σ α β ι : Type}

-- A state-passing computation that may stop for good. The state reached before
-- the stop stays observable: it carries what was touched on the way.
inductive Outcome (ε σ α : Type) where
  | done (value : α) (state : σ)
  | stopped (reason : ε) (state : σ)

def Outcome.state : Outcome ε σ α → σ
  | .done _ s => s
  | .stopped _ s => s

def Run (ε σ α : Type) := σ → Outcome ε σ α

namespace Run

def bind (first : Run ε σ α) (next : α → Run ε σ β) : Run ε σ β := fun s =>
  match first s with
  | .done value s' => next value s'
  | .stopped reason s' => .stopped reason s'

instance : Monad (Run ε σ) where
  pure value := fun s => .done value s
  bind := bind

def get : Run ε σ σ := fun s => .done s s
def modify (f : σ → σ) : Run ε σ Unit := fun s => .done () (f s)
def stop (reason : ε) : Run ε σ α := fun s => .stopped reason s

@[simp] theorem pure_apply (value : α) (s : σ) : (pure value : Run ε σ α) s = .done value s := rfl
@[simp] theorem get_apply (s : σ) : (get : Run ε σ σ) s = .done s s := rfl
@[simp] theorem modify_apply (f : σ → σ) (s : σ) : (modify f : Run ε σ Unit) s = .done () (f s) := rfl
@[simp] theorem stop_apply (reason : ε) (s : σ) : (stop reason : Run ε σ α) s = .stopped reason s := rfl

theorem bind_done {first : Run ε σ α} {next : α → Run ε σ β} {s s' : σ} {value : α}
    (ran : first s = .done value s') : (first >>= next) s = next value s' := by
  show bind first next s = _
  simp only [bind,ran]

theorem bind_stopped {first : Run ε σ α} {next : α → Run ε σ β} {s s' : σ} {reason : ε}
    (ran : first s = .stopped reason s') : (first >>= next) s = .stopped reason s' := by
  show bind first next s = _
  simp only [bind,ran]

-- `Completes R r`: from every state `r` runs to its end, and moves it along `R`.
def Completes (R : σ → σ → Prop) (r : Run ε σ α) : Prop :=
  ∀ s, ∃ value s', r s = .done value s' ∧ R s s'

theorem completes_pure {R : σ → σ → Prop} (refl : ∀ s, R s s) (value : α) :
    Completes R (pure value : Run ε σ α) := fun s => ⟨value,s,rfl,refl s⟩

theorem completes_bind {R : σ → σ → Prop} (trans : ∀ {a b c}, R a b → R b c → R a c)
    {first : Run ε σ α} {next : α → Run ε σ β} (one : Completes R first)
    (two : ∀ value, Completes R (next value)) : Completes R (first >>= next) := by
  intro s
  obtain ⟨value,middle,ran,start⟩ := one s
  obtain ⟨result,last,rest,finish⟩ := two value middle
  exact ⟨result,last,by rw [bind_done ran,rest],trans start finish⟩

end Run

-- States reached from a set of initial states by completed operations.
inductive Reached (initial : σ → Prop) (step : ι → Run ε σ α) : σ → Prop where
  | initial {s : σ} : initial s → Reached initial step s
  | step {s s' : σ} {op : ι} {value : α} : Reached initial step s → step op s = .done value s' →
      Reached initial step s'

theorem Reached.invariant {initial : σ → Prop} {step : ι → Run ε σ α} {Invariant : σ → Prop}
    (established : ∀ s, initial s → Invariant s)
    (preserved : ∀ s op value s', Invariant s → step op s = .done value s' → Invariant s')
    {s : σ} (path : Reached initial step s) : Invariant s := by
  induction path with
  | initial start => exact established _ start
  | step _ ran ih => exact preserved _ _ _ _ ih ran

-- A history of operations: the results up to the first stop, and how it ended.
def observe (step : ι → Run ε σ α) : List ι → σ → List α × Outcome ε σ Unit
  | [],s => ([],.done () s)
  | op :: rest,s =>
    match step op s with
    | .done value s' => (value :: (observe step rest s').1,(observe step rest s').2)
    | .stopped reason s' => ([],.stopped reason s')

-- Two outcomes with one result or one reason, over related states.
inductive Agree {τ : Type} (R : σ → τ → Prop) : Outcome ε σ α → Outcome ε τ α → Prop where
  | done {value : α} {s : σ} {t : τ} : R s t → Agree R (.done value s) (.done value t)
  | stopped {reason : ε} {s : σ} {t : τ} : R s t → Agree R (.stopped reason s) (.stopped reason t)

-- Every step of a history meets a condition on the state before it.
def Along (P : ι → σ → Prop) (step : ι → Run ε σ α) : List ι → σ → Prop
  | [],_ => True
  | op :: rest,s => P op s ∧ ∀ value s', step op s = .done value s' → Along P step rest s'

-- Where the steps of two machines agree exactly under a condition, and outside
-- it one goes on while the other stops, their histories agree exactly when
-- every step meets it.
theorem observe_exact {τ : Type} {R : σ → τ → Prop} {P : ι → σ → Prop} {step : ι → Run ε σ α} {step' : ι → Run ε τ α}
    (agree : ∀ op s t, R s t → P op s → Agree R (step op s) (step' op t))
    (differ : ∀ op s t, R s t → ¬P op s → ∃ value s' reason t',
      step op s = .done value s' ∧ step' op t = .stopped reason t') (ops : List ι) {s : σ} {t : τ} (related : R s t) :
    ((observe step ops s).1 = (observe step' ops t).1 ∧ Agree R (observe step ops s).2 (observe step' ops t).2) ↔
      Along P step ops s := by
  induction ops generalizing s t with
  | nil => exact ⟨fun _ => trivial,fun _ => ⟨rfl,.done related⟩⟩
  | cons op rest ih =>
    by_cases meets : P op s
    · have one := agree op s t related meets
      cases first : step op s with
      | done value s' =>
        cases second : step' op t with
        | done value' t' =>
          rw [first,second] at one
          cases one with
          | done next =>
            simp only [observe,Along,first,second,List.cons.injEq,true_and,meets,Outcome.done.injEq]
            constructor
            · rintro same _ _ ⟨_,rfl⟩
              exact (ih next).mp same
            · intro along
              exact (ih next).mpr (along value s' ⟨rfl,rfl⟩)
        | stopped reason t' => rw [first,second] at one; cases one
      | stopped reason s' =>
        cases second : step' op t with
        | done value' t' => rw [first,second] at one; cases one
        | stopped reason' t' =>
          rw [first,second] at one
          cases one with
          | stopped next =>
            simp only [observe,first,second,true_and]
            refine ⟨fun _ => ⟨meets,fun value s'' ran => ?_⟩,fun _ => .stopped next⟩
            rw [first] at ran
            cases ran
    · obtain ⟨value,s',reason,t',first,second⟩ := differ op s t related meets
      simp only [observe,Along,first,second,meets,false_and,iff_false]
      rintro ⟨results,_⟩
      cases results

theorem along_of {P : ι → σ → Prop} {step : ι → Run ε σ α} (always : ∀ op s, P op s) (ops : List ι) (s : σ) :
    Along P step ops s := by
  induction ops generalizing s with
  | nil => trivial
  | cons op rest ih => exact ⟨always op s,fun _ s' _ => ih s'⟩

theorem observe_agree {τ : Type} {R : σ → τ → Prop} {step : ι → Run ε σ α} {step' : ι → Run ε τ α}
    (agree : ∀ op s t, R s t → Agree R (step op s) (step' op t)) (ops : List ι) {s : σ} {t : τ} (related : R s t) :
    (observe step ops s).1 = (observe step' ops t).1 ∧ Agree R (observe step ops s).2 (observe step' ops t).2 :=
  (observe_exact (P := fun _ _ => True) (fun op s t related _ => agree op s t related)
    (fun _ _ _ _ never => (never trivial).elim) ops related).mpr (along_of (fun _ _ => trivial) ops s)

end SandboxStack.Trapping
