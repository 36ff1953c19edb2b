import SandboxStack.ExpressionMeaning
import SandboxStack.OperandFrames

namespace SandboxStack.Cc
open Wasm LinearMemory

-- The object of the struct assignment begun last, which the scratch local holds.
def latest : List Assigned → Value → Value
  | [],held => held
  | e :: rest,_ => latest rest (.i32 e.target)

structure Reflects (c : Context) (fp : U32) (w : World) (s : State) : Prop where
  sp : s.sp = w.sp
  memory : s.memory = w.memory
  frame : s.locals c.fp = .i32 fp

-- Code that carries out an evaluation, with the operands `pre` on top of the
-- stack and then `post`. An evaluation is a list of assignments, and each comes
-- with those of its own sides, of which `Own` says more.
structure Performs (M : Machine) (c : Context) (fp : U32) (Own : Assigned → List Assigned → Prop) {α : Type} (pre : List Value)
    (code : Code) (m : Comp α) (post : α → List Value) : Prop where
  runs : ∀ w a w' t s below,m w = .ok (a,w',t) → Calm t → s.stack = pre ++ below → Reflects c fp w s →
    ∃ s',execAll M code s = .ok s' ∧ s'.stack = post a ++ below ∧ Reflects c fp w' s' ∧
      s'.locals c.t32b = latest t (s.locals c.t32b)
  logs : ∀ w a w' t e,m w = .ok (a,w',t) → e ∈ t → ∃ own,own <:+: t ∧ Own e own

section
variable {M : Machine} {c : Context} {fp : U32} {Own : Assigned → List Assigned → Prop} {α β : Type} {m : Comp α} {f : α → Comp β}
  {pre operands : List Value} {mid : α → List Value} {post : β → List Value} {code rest : Code} {t₁ t₂ : List Assigned}

theorem latest_append {v : Value} : latest (t₁ ++ t₂) v = latest t₂ (latest t₁ v) := by
  induction t₁ generalizing v with
  | nil => rfl
  | cons e rest ih => exact ih

theorem calm_append : Calm (t₁ ++ t₂) ↔ Calm t₁ ∧ Calm t₂ := List.forall_mem_append

theorem bind_evaluated {w w' : World} {b : β} {t : List Assigned} (evaluated : (m >>= f) w = .ok (b,w',t)) :
    ∃ a w₁ t₁ t₂,m w = .ok (a,w₁,t₁) ∧ f a w₁ = .ok (b,w',t₂) ∧ t = t₁ ++ t₂ := by
  change Comp.bind m f w = _ at evaluated
  unfold Comp.bind at evaluated
  cases first : m w with
  | error e =>
    rw [first] at evaluated
    cases evaluated
  | ok answer =>
    obtain ⟨a,w₁,t₁⟩ := answer
    rw [first] at evaluated
    dsimp only at evaluated
    cases second : f a w₁ with
    | error e =>
      rw [second] at evaluated
      cases evaluated
    | ok answer =>
      obtain ⟨b',w₂,t₂⟩ := answer
      rw [second] at evaluated
      cases evaluated
      exact ⟨a,w₁,t₁,t₂,rfl,second,rfl⟩

theorem performs_stop {e : Stop} : Performs M c fp Own pre code (Comp.stop e) mid := by
  constructor
  · intro w a w' t s below evaluated
    cases evaluated
  · intro w a w' t e evaluated
    cases evaluated

theorem performs_bind (first : Performs M c fp Own pre code m mid) (second : ∀ a,Performs M c fp Own (mid a) rest (f a) post) :
    Performs M c fp Own pre (code ++ rest) (m >>= f) post where
  runs w b w' t s below evaluated calm stack reflects := by
    obtain ⟨a,w₁,t₁,t₂,one,two,rfl⟩ := bind_evaluated evaluated
    obtain ⟨early,late⟩ := calm_append.mp calm
    obtain ⟨s₁,ran,above,same,held⟩ := first.runs w a w₁ t₁ s below one early stack reflects
    obtain ⟨s₂,later,top,same',held'⟩ := (second a).runs w₁ b w' t₂ s₁ below two late above same
    refine ⟨s₂,append_done ran later,top,same',?_⟩
    rw [held',held,latest_append]
  logs w b w' t e evaluated member := by
    obtain ⟨a,w₁,t₁,t₂,one,two,rfl⟩ := bind_evaluated evaluated
    rcases List.mem_append.mp member with inside | inside
    · obtain ⟨own,part,holds⟩ := first.logs w a w₁ t₁ e one inside
      exact ⟨own,part.trans (List.prefix_append t₁ t₂).isInfix,holds⟩
    · obtain ⟨own,part,holds⟩ := (second a).logs w₁ b w' t₂ e two inside
      exact ⟨own,part.trans (List.suffix_append t₁ t₂).isInfix,holds⟩

-- What comes after needs no code.
theorem performs_after (first : Performs M c fp Own pre code m mid) (second : ∀ a,Performs M c fp Own (mid a) [] (f a) post) :
    Performs M c fp Own pre code (m >>= f) post := by
  have both := performs_bind first second
  rw [List.append_nil] at both
  exact both

-- Code that only works on its operands.
def Computes (M : Machine) (c : Context) (fp : U32) (code : Code) (pre post : List Value) : Prop :=
  ∀ s below,s.stack = pre ++ below → s.locals c.fp = .i32 fp → execAll M code s = .ok {s with stack := post ++ below}

theorem computes_nothing : Computes M c fp [] pre pre := by
  intro s below stack _
  rw [← stack]
  rfl

theorem computes_append {middle last : List Value} (first : Computes M c fp code pre middle)
    (second : Computes M c fp rest middle last) : Computes M c fp (code ++ rest) pre last := by
  intro s below stack frame
  exact append_done (first s below stack frame) (second _ below rfl frame)

theorem computes_frame {middle : List Value} (z : List Value) (first : Computes M c fp code pre middle) :
    Computes M c fp code (pre ++ z) (middle ++ z) := by
  intro s below stack frame
  rw [List.append_assoc] at stack ⊢
  exact first s (z ++ below) stack frame

theorem performs_computed {middle : List Value} (first : Computes M c fp code pre middle)
    (second : Performs M c fp Own middle rest m mid) : Performs M c fp Own pre (code ++ rest) m mid where
  runs w a w' t s below evaluated calm stack reflects := by
    obtain ⟨s',ran,top,same,held⟩ := second.runs w a w' t {s with stack := middle ++ below} below evaluated calm rfl
      ⟨reflects.sp,reflects.memory,reflects.frame⟩
    exact ⟨s',append_done (first s below stack reflects.frame) ran,top,same,held⟩
  logs := second.logs

theorem performs_silent {a : α} (computes : Computes M c fp code pre (mid a)) : Performs M c fp Own pre code (pure a) mid where
  runs w b w' t s below evaluated calm stack reflects := by
    cases evaluated
    exact ⟨_,computes s below stack reflects.frame,rfl,⟨reflects.sp,reflects.memory,reflects.frame⟩,rfl⟩
  logs w b w' t e evaluated member := by
    cases evaluated
    cases member

theorem performs_pure {a : α} (same : pre = mid a) : Performs M c fp Own pre [] (pure a) mid := by
  apply performs_silent
  rw [← same]
  exact computes_nothing

theorem performs_map {g : α → β} (first : Performs M c fp Own pre code m mid) (same : ∀ a,mid a = post (g a)) :
    Performs M c fp Own pre code (m >>= fun a => pure (g a)) post :=
  performs_after first fun a => performs_pure (same a)

theorem performs_frame (z : List Value) (first : Performs M c fp Own pre code m mid) :
    Performs M c fp Own (pre ++ z) code m fun a => mid a ++ z where
  runs w a w' t s below evaluated calm stack reflects := by
    rw [List.append_assoc] at stack ⊢
    exact first.runs w a w' t s (z ++ below) evaluated calm stack reflects
  logs := first.logs

theorem operate_silent {gen : Gen Code} {w w' : World} {results : List Value} {t : List Assigned}
    (evaluated : operate M gen operands w = .ok (results,w',t)) : t = [] := by
  unfold operate at evaluated
  split at evaluated
  · cases evaluated
  · split at evaluated <;> cases evaluated
    rfl

theorem performs_operate (calls : CallsLocal M) {gen : Gen Code} (made : gen = .ok code) (bare : code.all Instr.bare = true) :
    Performs M c fp Own operands code (operate M gen operands) fun results => results where
  runs w results w' t s below evaluated calm stack reflects := by
    unfold operate at evaluated
    rw [made] at evaluated
    dsimp only at evaluated
    split at evaluated
    · cases evaluated
    · rename_i u ran
      cases evaluated
      have lifted := bare_local calls bare _ _ below s.locals ran
      rw [← reflects.sp,← reflects.memory,← stack] at lifted
      exact ⟨_,lifted,rfl,⟨rfl,rfl,reflects.frame⟩,rfl⟩
  logs w results w' t e evaluated member := by
    rw [operate_silent evaluated] at member
    cases member

theorem performs_single {vs : List Value} : Performs M c fp Own vs [] (Comp.single vs) Option.toList := by
  match vs with
  | [] => exact performs_pure rfl
  | [v] => exact performs_pure rfl
  | _ :: _ :: _ => exact performs_stop

theorem performs_address {v : Option Value} : Performs M c fp Own v.toList [] (Comp.address v) fun a => [.i32 a] := by
  match v with
  | some (.i32 a) => exact performs_pure rfl
  | none | some (.i64 _) | some (.f32 _) | some (.f64 _) => exact performs_stop

theorem performs_operator (calls : CallsLocal M) {gen : Gen Code} (made : gen = .ok code) (bare : code.all Instr.bare = true) :
    Performs M c fp Own operands code (operator M gen operands) Option.toList :=
  performs_after (performs_operate calls made bare) fun _ => performs_single

-- The value on top is kept in a local while the operator works.
theorem performs_saved (calls : CallsLocal M) {i : Nat} {v : Value} {gen : Gen Code} (apart : i ≠ c.fp ∧ i ≠ c.t32b)
    (made : gen = .ok code) (bare : code.all Instr.bare = true) :
    Performs M c fp Own (v :: operands) (localTee i ++ code ++ localGet i) (operate M gen (v :: operands)) (v :: ·) where
  runs w results w' t s below evaluated calm stack reflects := by
    unfold operate at evaluated
    rw [made] at evaluated
    dsimp only at evaluated
    split at evaluated
    · cases evaluated
    · rename_i u ran
      cases evaluated
      have lifted := bare_local calls bare _ _ below (Function.update s.locals i v) ran
      rw [← reflects.sp,← reflects.memory,← stack] at lifted
      have teed : execAll M (localTee i) s = .ok ⟨s.stack,Function.update s.locals i v,s.sp,s.memory⟩ := by
        simp [localTee,Plain.exec,stack,bind,Except.bind]
      refine ⟨_,append_done (append_done teed lifted) rfl,?_,⟨rfl,rfl,?_⟩,?_⟩
      · exact congrArg (· :: (u.stack ++ below)) (Function.update_self i v s.locals)
      · exact (Function.update_of_ne (Ne.symm apart.1) _ _).trans reflects.frame
      · exact Function.update_of_ne (Ne.symm apart.2) _ _
  logs w results w' t e evaluated member := by
    rw [operate_silent evaluated] at member
    cases member

theorem performs_branch {b : U32} {r : Option ValueType} {yes no : Code} {other : Comp α}
    (taken : Performs M c fp Own pre yes m mid) (skipped : Performs M c fp Own pre no other mid) :
    Performs M c fp Own (.i32 b :: pre) [.ifElse r yes no] (if b ≠ 0 then m else other) mid := by
  by_cases nonzero : b ≠ 0
  · rw [if_pos nonzero]
    refine ⟨fun w a w' t s below evaluated calm stack reflects => ?_,taken.logs⟩
    rw [ifElse_taken stack nonzero]
    exact taken.runs w a w' t _ below evaluated calm rfl ⟨reflects.sp,reflects.memory,reflects.frame⟩
  · rw [if_neg nonzero]
    obtain rfl := not_not.mp nonzero
    refine ⟨fun w a w' t s below evaluated calm stack reflects => ?_,skipped.logs⟩
    rw [ifElse_skipped stack]
    exact skipped.runs w a w' t _ below evaluated calm rfl ⟨reflects.sp,reflects.memory,reflects.frame⟩

theorem performs_world : Performs M c fp Own pre [.plain .globalGet] Comp.world fun w => .i32 w.sp :: pre where
  runs w a w' t s below evaluated calm stack reflects := by
    cases evaluated
    refine ⟨s.push (.i32 s.sp),rfl,?_,⟨reflects.sp,reflects.memory,reflects.frame⟩,rfl⟩
    rw [← reflects.sp]
    exact congrArg (_ :: ·) stack
  logs w a w' t e evaluated member := by
    cases evaluated
    cases member

theorem performs_moveSp {d : U32} (moved : ∀ s,execAll M code s = .ok {s with sp := s.sp + d}) :
    Performs M c fp Own pre code (Comp.moveSp d) fun _ => pre where
  runs w a w' t s below evaluated calm stack reflects := by
    cases evaluated
    exact ⟨_,moved s,stack,⟨congrArg (· + d) reflects.sp,reflects.memory,reflects.frame⟩,rfl⟩
  logs w a w' t e evaluated member := by
    cases evaluated
    cases member

end

end SandboxStack.Cc
