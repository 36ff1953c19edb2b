import SandboxStack.ExpressionSimulation
import SandboxStack.WasmRuns

namespace SandboxStack.Cc
open Wasm LinearMemory

section
variable (M : Machine) (c : Context) (fp : U32)

-- The code of a struct assignment copies the value of its right side to the
-- object of its left side, whose address is left.
def Delivers (e : Assigned) : Prop :=
  ∀ depth code s,genExpr c depth e.node = .ok code → Reflects c fp e.start s →
    ∃ s',execAll M code s = .ok s' ∧ s'.memory = e.after.memory.write e.target.toNat e.value ∧ s'.stack = .i32 e.target :: s.stack

-- The struct assignments of an expression do, and what selects from their
-- results, copies from them or passes them on gets the objects assigned to.
structure Assigns (code : Code) (w : World) (v : Option Value) (w' : World) (t : List Assigned) : Prop where
  assignments : ∀ e ∈ t,Delivers M c fp e
  uses : ∀ s,Reflects c fp w s → ∃ s',execAll M code s = .ok s' ∧ s'.stack = v.toList ++ s.stack ∧ Reflects c fp w' s'

end

section
variable {M : Machine} {c : Context} {fp : U32} {depth : Nat} {n : Node} {code : Code} {w w' : World} {v : Option Value}
  {e : Assigned} {t own : List Assigned}

-- With nothing wrong inside its sides, an assignment delivers if it is undisturbed.
theorem begun_parts (calls : CallsLocal M) (begun : Begun M c fp e own) :
    ∃ t₁ t₂,own = t₁ ++ e :: t₂ ∧ (∀ d ∈ t₁,∃ inner,inner <:+: t₁ ∧ Begun M c fp d inner) ∧
      (∀ d ∈ t₂,∃ inner,inner <:+: t₂ ∧ Begun M c fp d inner) ∧
      (Calm t₁ → Calm t₂ → (Delivers M c fp e ↔ Undisturbed e)) := by
  obtain ⟨depth,code,generated⟩ := begun.generated
  obtain ⟨w,b,t₁,t₂,target,source,copies,value,during,rfl⟩ := begun.evaluated
  have run : Calm t₁ → Calm t₂ → ∀ depth code s,genExpr c depth e.node = .ok code → Reflects c fp e.start s →
      ∃ s',execAll M code s = .ok s' ∧ s'.memory = e.after.memory.write e.target.toNat e.value ∧
        s'.stack = latest t₂ (.i32 e.target) :: s.stack := by
    intro early late depth code s generated reflects
    obtain ⟨addr,value',one,two,rfl⟩ := assign_stages begun.struct generated
    obtain ⟨s',ran,stack,same,_⟩ := assigned_run ((node_yields calls e.lhs depth).1 addr one)
      ((node_yields calls e.rhs depth).2 value' two) target source early late copies reflects
    exact ⟨s',ran,by rw [same.memory,value],stack⟩
  obtain ⟨addr,value',one,two,_⟩ := assign_stages begun.struct generated
  refine ⟨t₁,t₂,rfl,fun d member => ?_,fun d member => ?_,fun early late => ?_⟩
  · exact ((node_yields calls e.lhs depth).1 addr one).logs _ _ _ _ d target member
  · exact ((node_yields calls e.rhs depth).2 value' two).logs _ _ _ _ d source member
  rw [undisturbed_iff during]
  constructor
  · intro delivers
    have reflects : Reflects c fp e.start ⟨[],fun _ => .i32 fp,e.start.sp,e.start.memory⟩ := ⟨rfl,rfl,rfl⟩
    obtain ⟨s₁,ran₁,_,left₁⟩ := delivers depth code _ generated reflects
    obtain ⟨s₂,ran₂,_,left₂⟩ := run early late depth code _ generated reflects
    cases ran₁.symm.trans ran₂
    exact (List.cons.inj (left₂.symm.trans left₁)).1
  · intro kept depth code s generated reflects
    obtain ⟨s',ran,memory,stack⟩ := run early late depth code s generated reflects
    rw [kept] at stack
    exact ⟨s',ran,memory,stack⟩

-- Induction on the length: what is inside the sides of an assignment first.
theorem delivered_calm (calls : CallsLocal M) (begun : Begun M c fp e own) (all : ∀ d ∈ own,Delivers M c fp d) : Calm own := by
  induction size : own.length using Nat.strong_induction_on generalizing e own with
  | _ k ih =>
    obtain ⟨t₁,t₂,rfl,before,during,exactly⟩ := begun_parts calls begun
    have inside : ∀ part,part.length < k → (∀ d ∈ part,Delivers M c fp d) →
        (∀ d ∈ part,∃ inner,inner <:+: part ∧ Begun M c fp d inner) → Calm part := by
      intro part shorter delivers parts d member
      obtain ⟨inner,infix_,begun⟩ := parts d member
      have calm := ih inner.length (Nat.lt_of_le_of_lt infix_.length_le shorter) begun
        (fun f present => delivers f (infix_.subset present)) rfl
      obtain ⟨u₁,u₂,rfl,_⟩ := begun_parts calls begun
      exact calm d (List.mem_append_right u₁ (.head u₂))
    rw [List.length_append,List.length_cons] at size
    have early := inside t₁ (by omega) (fun d member => all d (List.mem_append_left _ member)) before
    have late := inside t₂ (by omega) (fun d member => all d (List.mem_append_right _ (.tail _ member))) during
    refine calm_append.mpr ⟨early,List.forall_mem_cons.mpr ⟨?_,late⟩⟩
    exact (exactly early late).mp (all e (List.mem_append_right _ (.head _)))

theorem struct_assignment (calls : CallsLocal M) (made : genExpr c depth n = .ok code)
    (evaluated : (evaluate M c fp n).value w = .ok (v,w',t)) : Assigns M c fp code w v w' t ↔ ∀ e ∈ t,Undisturbed e := by
  have performs : Performs M c fp _ [] code (evaluate M c fp n).value Option.toList := (node_yields calls n depth).2 code made
  constructor
  · intro assigns e member
    obtain ⟨own,part,begun⟩ := performs.logs w v w' t e evaluated member
    have calm := delivered_calm calls begun fun d present => assigns.assignments d (part.subset present)
    obtain ⟨t₁,t₂,rfl,_⟩ := begun_parts calls begun
    exact calm e (List.mem_append_right t₁ (.head t₂))
  · intro calm
    refine ⟨fun e member => ?_,fun s reflects => ?_⟩
    · obtain ⟨own,part,begun⟩ := performs.logs w v w' t e evaluated member
      obtain ⟨t₁,t₂,rfl,_,_,exactly⟩ := begun_parts calls begun
      have inner : Calm (t₁ ++ e :: t₂) := fun d present => calm d (part.subset present)
      obtain ⟨early,late⟩ := calm_append.mp inner
      exact (exactly early (List.forall_mem_cons.mp late).2).mpr (calm e member)
    · obtain ⟨s',ran,stack,same,_⟩ := performs.runs w v w' t s s.stack evaluated calm rfl reflects
      exact ⟨s',ran,stack,same⟩

end

namespace Controls

-- struct { int x; } a, b, c; the variables at 0, 4 and 8 in the frame.
def record : Ty := .struct 0 4 4
def recordAt (offset : Int) : Obj := ⟨"r",record,true,offset,false,false⟩
def recordVar (offset : Int) : Node := .var (some record) (recordAt offset)
def assignRecord (lhs rhs : Node) : Node := .binary .assign (some record) lhs rhs

def emptyInstance : WasmInstance := ⟨⟨fun _ a _ => a,fun _ a _ => a,fun _ _ _ => false,fun _ _ _ => false,id,id,fun _ => none,
  fun _ => none,fun _ => 0,fun _ => 0,fun _ => 0,fun _ => 0⟩,fun _ => none,fun _ => none,fun _ _ => false⟩

def frameContext : Context := ⟨0,.void,fun _ => none,fun _ => none,0,fun _ => 0⟩
def frameWorld : World := ⟨1024,⟨fun _ => 0,1,1,onePage_grown,onePage_addressable⟩⟩

def frameState : State := ⟨[],fun _ => .i32 1024,frameWorld.sp,frameWorld.memory⟩
def framed (n : Node) : Evaluated := evaluate (emptyInstance.machine 0) frameContext 1024 n

theorem recordVar_addr (offset : Int) {w : World} :
    (framed (recordVar offset)).addr w = .ok (1024 + BitVec.ofInt 32 offset,w,[]) := rfl

theorem recordVar_value (offset : Int) {w : World} :
    (framed (recordVar offset)).value w = .ok (some (.i32 (1024 + BitVec.ofInt 32 offset)),w,[]) := rfl

theorem assignRecord_value {lhs rhs : Node} {a b : U32} {w w₁ w₂ : World} {t₁ t₂ : List Assigned}
    (target : (framed lhs).addr w = .ok (a,w₁,t₁)) (source : (framed rhs).value w₁ = .ok (some (.i32 b),w₂,t₂))
    (copies : CopyFits w₂.memory 4 b a) : (framed (assignRecord lhs rhs)).value w =
      .ok (some (.i32 a),{w₂ with memory := w₂.memory.write a.toNat (w₂.memory.read b.toNat 4)},
        t₁ ++ ⟨record,lhs,rhs,w,a,w₂.memory.read b.toNat 4,w₂,t₂.map Assigned.target⟩ :: t₂) := by
  change assignedStruct record lhs rhs (framed lhs).addr (framed rhs).value w = _
  unfold assignedStruct
  rw [target]
  dsimp only
  rw [source]
  dsimp only
  exact if_pos copies

end Controls

-- a = (a = b)
open Controls in
theorem struct_assignment_same : ∃ code v w' t,
    genExpr frameContext 0 (assignRecord (recordVar 0) (assignRecord (recordVar 0) (recordVar 4))) = .ok code ∧
    (framed (assignRecord (recordVar 0) (assignRecord (recordVar 0) (recordVar 4)))).value frameWorld = .ok (v,w',t) ∧
    Assigns (emptyInstance.machine 0) frameContext 1024 code frameWorld v w' t := by
  have inner := assignRecord_value (recordVar_addr 0 (w := frameWorld)) (recordVar_value 4) (by decide)
  have outer := assignRecord_value (recordVar_addr 0) inner (by decide)
  have made : genExpr frameContext 0 (assignRecord (recordVar 0) (assignRecord (recordVar 0) (recordVar 4))) = .ok _ := rfl
  refine ⟨_,_,_,_,made,outer,?_⟩
  refine (struct_assignment machine_local made outer).mpr ?_
  simp [Undisturbed]

-- a = (b = c) leaves the address of b.
open Controls in
theorem struct_assignment_fails : ∃ code v w' t,
    genExpr frameContext 0 (assignRecord (recordVar 0) (assignRecord (recordVar 4) (recordVar 8))) = .ok code ∧
    (framed (assignRecord (recordVar 0) (assignRecord (recordVar 4) (recordVar 8)))).value frameWorld = .ok (v,w',t) ∧
    ¬Assigns (emptyInstance.machine 0) frameContext 1024 code frameWorld v w' t := by
  have inner := assignRecord_value (recordVar_addr 4 (w := frameWorld)) (recordVar_value 8) (by decide)
  have outer := assignRecord_value (recordVar_addr 0) inner (by decide)
  refine ⟨_,_,_,_,rfl,outer,?_⟩
  intro assigns
  obtain ⟨s',ran,stack,_⟩ := assigns.uses frameState ⟨rfl,rfl,rfl⟩
  cases ran
  revert stack
  decide

end SandboxStack.Cc
