import SandboxStack.GeneratedCode
import SandboxStack.IndexSpaces
import SandboxStack.WasmRuns

namespace SandboxStack.Cc
open Wasm LinearMemory LittleEndian

def Aligned (p : U32) : Prop := p.toNat % 16 = 0

-- A call leaves the stack pointer aligned.
def Returns (call : Nat → State → Except Stop State) : Prop :=
  ∀ i s s', Aligned s.sp → call i s = .ok s' → Aligned s'.sp

structure Respects (M : Machine) : Prop where
  direct : Returns M.direct
  indirect : Returns M.indirect
  locals : LocalsKept M

-- The stack pointer stays aligned, and the frame pointer what it is.
def HoldsFrame (fp : Nat) (s t : State) : Prop := Aligned t.sp ∧ t.locals fp = s.locals fp

def keepsFrame (fp : Nat) : Plain → Bool
  | .globalSet => false
  | .localSet i | .localTee i => i ≠ fp
  | _ => true

structure Steady (M : Machine) (fp : Nat) (code : Code) : Prop where
  done : ∀ s s', Aligned s.sp → execAll M code s = .ok s' → HoldsFrame fp s s'
  within : ∀ s p t, Aligned s.sp → Arrives M code s p t → HoldsFrame fp s t

section
variable {M : Machine} {fp : Nat} {code first rest : Code} {s s' t : State} {p : Plain} {a b : U32}

theorem aligned_add (left : Aligned a) (right : Aligned b) : Aligned (a + b) := by
  unfold Aligned at *
  rw [BitVec.toNat_add]
  omega

theorem aligned_sub (left : Aligned a) (right : Aligned b) : Aligned (a - b) := by
  unfold Aligned at *
  rw [BitVec.toNat_sub]
  omega

theorem aligned_size {size : Nat} (multiple : size % 16 = 0) : Aligned (BitVec.ofInt 32 size) := by
  unfold Aligned
  rw [BitVec.ofInt_natCast,BitVec.toNat_ofNat]
  omega

theorem execAll_one {i : Instr} : execAll M [i] s = i.exec M s := by
  rw [execAll_cons]
  cases i.exec M s <;> rfl

theorem arrives_append (arrives : Arrives M (first ++ rest) s p t) :
    Arrives M first s p t ∨ ∃ s',execAll M first s = .ok s' ∧ Arrives M rest s' p t := by
  induction first generalizing s with
  | nil => exact .inr ⟨s,rfl,arrives⟩
  | cons i tail ih =>
    rw [List.cons_append] at arrives
    cases arrives with
    | here => exact .inl .here
    | yes top taken after => exact .inl (.yes top taken after)
    | no top after => exact .inl (.no top after)
    | later executed after =>
      rcases ih after with inside | ⟨s',done,beyond⟩
      · exact .inl (.later executed inside)
      · refine .inr ⟨s',?_,beyond⟩
        rw [execAll_cons,executed]
        exact done

theorem arrives_one {i : Instr} (arrives : Arrives M [i] s p t) :
    (i = .plain p ∧ t = s) ∨ ∃ type yes no below c,i = .ifElse type yes no ∧ s.stack = .i32 c :: below ∧
      ((c ≠ 0 ∧ Arrives M yes {s with stack := below} p t) ∨ c = 0 ∧ Arrives M no {s with stack := below} p t) := by
  cases arrives with
  | here => exact .inl ⟨rfl,rfl⟩
  | yes top taken after => exact .inr ⟨_,_,_,_,_,rfl,top,.inl ⟨taken,after⟩⟩
  | no top after => exact .inr ⟨_,_,_,_,_,rfl,top,.inr ⟨rfl,after⟩⟩
  | later _ after => cases after

theorem plain_holds (respects : Respects M) (keeps : keepsFrame fp p = true) (aligned : Aligned s.sp)
    (executed : p.exec M s = .ok s') : HoldsFrame fp s s' := by
  have untouched : s'.locals = s.locals ∧ s'.sp = s.sp → HoldsFrame fp s s' := by
    rintro ⟨locals,pointer⟩
    exact ⟨pointer ▸ aligned,congrFun locals fp⟩
  cases p
  case globalSet => cases keeps
  case localSet i | localTee i =>
    have other : i ≠ fp := of_decide_eq_true keeps
    unfold Plain.exec at executed
    dsimp only at executed
    split at executed
    · cases executed
      exact ⟨aligned,Function.update_of_ne other.symm ..⟩
    · cases executed
  case call f => exact ⟨respects.direct f s s' aligned executed,congrFun (respects.locals.direct f s s' executed) fp⟩
  case callIndirect t =>
    exact ⟨respects.indirect t s s' aligned executed,congrFun (respects.locals.indirect t s s' executed) fp⟩
  all_goals exact untouched (quiet_kept rfl executed)

-- Generated code that is put together in the ways generated code is stays steady.
theorem steady_append (head : Steady M fp first) (tail : Steady M fp rest) : Steady M fp (first ++ rest) where
  done s s' aligned executed := by
    obtain ⟨middle,before,beyond⟩ := append_parts executed
    obtain ⟨kept,same⟩ := head.done _ _ aligned before
    obtain ⟨after,later⟩ := tail.done _ _ kept beyond
    exact ⟨after,later.trans same⟩
  within s p t aligned arrives := by
    rcases arrives_append arrives with inside | ⟨middle,before,beyond⟩
    · exact head.within _ _ _ aligned inside
    · obtain ⟨kept,same⟩ := head.done _ _ aligned before
      obtain ⟨after,later⟩ := tail.within _ _ _ kept beyond
      exact ⟨after,later.trans same⟩

theorem steady_empty : Steady M fp [] := by
  refine ⟨fun s s' aligned executed => ?_,fun s p t _ arrives => nomatch arrives⟩
  cases executed
  exact ⟨aligned,rfl⟩

theorem steady_plain (respects : Respects M) (keeps : keepsFrame fp p = true) : Steady M fp [.plain p] where
  done s s' aligned executed := by
    rw [execAll_one] at executed
    exact plain_holds respects keeps aligned executed
  within s q t aligned arrives := by
    rcases arrives_one arrives with ⟨_,rfl⟩ | ⟨_,_,_,_,_,same,_⟩
    · exact ⟨aligned,rfl⟩
    · cases same

theorem steady_ordinary (respects : Respects M) {c : Context} {i : Instr} (usual : ordinary c i = true) :
    Steady M c.fp [i] := by
  cases i with
  | ifElse => cases usual
  | plain p =>
    apply steady_plain respects
    cases p
    case globalSet => cases usual
    case localSet i | localTee i => exact decide_eq_true (of_decide_eq_true usual).1
    all_goals rfl

theorem steady_branch {type : Option ValueType} {yes no : Code} (taken : Steady M fp yes) (other : Steady M fp no) :
    Steady M fp [.ifElse type yes no] where
  done s s' aligned executed := by
    rw [execAll_one] at executed
    unfold Instr.exec at executed
    split at executed
    · rename_i c below top
      split at executed
      · exact taken.done {s with stack := below} s' aligned executed
      · exact other.done {s with stack := below} s' aligned executed
    · cases executed
  within s p t aligned arrives := by
    rcases arrives_one arrives with ⟨plain,_⟩ | ⟨_,_,_,below,_,same,_,⟨_,inside⟩ | ⟨_,inside⟩⟩
    · cases plain
    · cases same
      exact taken.within {s with stack := below} p t aligned inside
    · cases same
      exact other.within {s with stack := below} p t aligned inside

theorem steady_move (respects : Respects M) {o : IntBinary} {size : Nat} (direction : o = .add ∨ o = .sub)
    (multiple : size % 16 = 0) : Steady M fp (moveSp o size) := by
  unfold moveSp
  split
  · have prepared : Steady M fp ([.plain .globalGet] ++ i32c size ++ op (.i32 o)) :=
      steady_append (steady_append (steady_plain respects rfl) (steady_plain respects rfl)) (steady_plain respects rfl)
    have amount := aligned_size multiple
    constructor
    · intro s s' aligned executed
      have moved : s' = {s with sp := if o = .add then s.sp + BitVec.ofInt 32 size else s.sp - BitVec.ofInt 32 size} := by
        rcases direction with rfl | rfl
        all_goals
          cases executed
          rfl
      subst moved
      refine ⟨?_,rfl⟩
      dsimp only
      split
      · exact aligned_add aligned amount
      · exact aligned_sub aligned amount
    · intro s p t aligned arrives
      rcases arrives_append arrives with inside | ⟨middle,before,beyond⟩
      · exact prepared.within _ _ _ aligned inside
      · rcases arrives_one beyond with ⟨_,rfl⟩ | ⟨_,_,_,_,_,same,_⟩
        · exact prepared.done _ _ aligned before
        · cases same
  · exact steady_empty

theorem steady_closed (respects : Respects M) (c : Context) : Closed c (Steady M c.fp) where
  empty := steady_empty
  append _ _ := steady_append
  plain _ := steady_ordinary respects
  branch _ _ _ := steady_branch
  move _ _ := steady_move respects

theorem steady_saved (respects : Respects M) (c : Context) : Steady M c.fp (localTee c.t32b) := by
  apply steady_plain respects
  simp [keepsFrame,Context.t32b,Context.fp]

-- ---- the prologue and the epilogue ----

theorem prologue_run {c : Context} {frameSize : Nat} (executed : execAll M (prologue c frameSize) s = .ok s') :
    s'.sp = s.sp - BitVec.ofInt 32 frameSize ∧ s'.locals c.fp = .i32 (s.sp - BitVec.ofInt 32 frameSize) := by
  unfold prologue at executed
  by_cases empty : frameSize = 0
  · subst empty
    cases executed
    simp [State.push]
  · rw [if_pos empty] at executed
    cases executed
    simp [State.push]

theorem epilogue_restores {c : Context} {frameSize : Nat} {base : U32} (frame : s.locals c.fp = .i32 base) :
    execAll M (localGet c.fp ++ (if frameSize ≠ 0 then i32c frameSize ++ op (.i32 .add) else []) ++ [.plain .globalSet]) s =
      .ok {s with sp := base + BitVec.ofInt 32 frameSize} := by
  split
  · simp [localGet,i32c,op,Plain.exec,State.push,frame,NumericOp.eval,IntBinary.eval,bind,Except.bind,pure,Except.pure]
  · rename_i empty
    have zero : frameSize = 0 := not_not.mp empty
    subst zero
    simp [localGet,Plain.exec,State.push,frame,bind,Except.bind]

theorem epilogue_run {c : Context} {frameSize : Nat} {base : U32} (frame : s.locals c.fp = .i32 base)
    (executed : execAll M (epilogue c frameSize) s = .ok s') :
    s'.sp = base + BitVec.ofInt 32 frameSize ∧ s'.locals = s.locals := by
  unfold epilogue at executed
  rw [append_ok (epilogue_restores frame)] at executed
  split at executed <;> cases executed <;> exact ⟨rfl,rfl⟩

end

-- ---- the run of a function ----

-- What a frame of this size at `base` keeps while its function runs.
def InFrame (fp : Nat) (base : U32) (s : State) : Prop := Aligned s.sp ∧ s.locals fp = .i32 base

-- A function the generator made: what it does first, then its statements, then the epilogue.
structure FramedParts (M : Machine) (c : Context) (frameSize : Nat) (params : Code) (body : Body) : Prop where
  rounded : frameSize % 16 = 0
  params : Steady M c.fp params
  body : BodyMade (Steady M c.fp) body

def framedBody (c : Context) (frameSize : Nat) (params : Code) (body : Body) : Body :=
  .code (prologue c frameSize ++ params) :: (body ++ [.code (epilogue c frameSize)])

section
variable {M : Machine} {c : Context} {frameSize : Nat} {params code : Code} {body rest : Body} {s s' t : State} {p : Point} {i : Plain}

theorem alignTo_rounded (n : Nat) : alignTo n 16 % 16 = 0 := Nat.mul_mod_left ..

theorem genFunction_framed (respects : Respects M) {fn : Global} {out : FunctionBody} (made : genFunction c fn = .ok out) :
    ∃ offsets frameSize params body,assignLvarOffsets fn.locals = .ok (offsets,frameSize) ∧
      FramedParts M c frameSize params body ∧ out.body = framedBody c frameSize params body := by
  have closed := steady_closed respects c
  obtain ⟨offsets,frameSize,params,body,placed,usual,statements,whole⟩ := genFunction_parts closed (steady_saved respects c) made
  refine ⟨offsets,frameSize,params,body,placed,⟨?_,plains_closed closed usual,statements⟩,whole⟩
  obtain ⟨⟨_,top⟩,_,same⟩ := bind_ok placed
  cases same
  exact alignTo_rounded top

-- In code without branches, only its own instructions are come to.
theorem arrives_member (flat : ∀ i ∈ code, ∃ p,i = .plain p) (arrives : Arrives M code s i t) : .plain i ∈ code := by
  induction arrives with
  | here => exact List.mem_cons_self ..
  | later _ _ ih => exact List.mem_cons_of_mem _ (ih fun i member => flat i (.tail _ member))
  | yes | no =>
    obtain ⟨p,same⟩ := flat _ (List.mem_cons_self ..)
    cases same

theorem prologue_flat : ∀ i ∈ prologue c frameSize, ∃ p,i = .plain p := by
  unfold prologue
  split <;> simp [i32c,op,localTee]

theorem prologue_arrives (respects : Respects M) (aligned : Aligned s.sp) (arrives : Arrives M (prologue c frameSize) s i t) :
    Aligned t.sp ∧ i ≠ .localGet c.fp := by
  constructor
  · have prepared : Steady M (c.fp + 1)
        ([.plain .globalGet] ++ (if frameSize ≠ 0 then i32c frameSize ++ op (.i32 .sub) else []) ++ localTee c.fp) := by
      have lowered : Steady M (c.fp + 1) (if frameSize ≠ 0 then i32c frameSize ++ op (.i32 .sub) else []) := by
        split
        · exact steady_append (steady_plain respects rfl) (steady_plain respects rfl)
        · exact steady_empty
      exact steady_append (steady_append (steady_plain respects rfl) lowered) (steady_plain respects (by simp [keepsFrame]))
    rcases arrives_append arrives with inside | ⟨middle,before,beyond⟩
    · exact (prepared.within _ _ _ aligned inside).1
    · rcases arrives_one beyond with ⟨_,rfl⟩ | ⟨_,_,_,_,_,same,_⟩
      · exact (prepared.done _ _ aligned before).1
      · cases same
  · intro read
    have member := arrives_member prologue_flat arrives
    subst read
    unfold prologue at member
    split at member <;> simp [i32c,op,localTee] at member

section
variable (framed : FramedParts M c frameSize params body)
include framed

theorem base_aligned (aligned : Aligned s.sp) : Aligned (s.sp - BitVec.ofInt 32 frameSize) :=
  aligned_sub aligned (aligned_size framed.rounded)

theorem entry_run (aligned : Aligned s.sp) (executed : execAll M (prologue c frameSize ++ params) s = .ok s') :
    InFrame c.fp (s.sp - BitVec.ofInt 32 frameSize) s' := by
  obtain ⟨middle,opened,spilled⟩ := append_parts executed
  obtain ⟨pointer,frame⟩ := prologue_run opened
  obtain ⟨kept,same⟩ := framed.params.done middle s' (pointer ▸ base_aligned framed aligned) spilled
  exact ⟨kept,same.trans frame⟩

theorem entry_arrives (respects : Respects M) (aligned : Aligned s.sp)
    (arrives : Arrives M (prologue c frameSize ++ params) s i t) :
    Aligned t.sp ∧ (i = .localGet c.fp → t.locals c.fp = .i32 (s.sp - BitVec.ofInt 32 frameSize)) := by
  rcases arrives_append arrives with inside | ⟨middle,opened,beyond⟩
  · obtain ⟨kept,other⟩ := prologue_arrives respects aligned inside
    exact ⟨kept,fun same => absurd same other⟩
  · obtain ⟨pointer,frame⟩ := prologue_run opened
    obtain ⟨kept,same⟩ := framed.params.within middle i t (pointer ▸ base_aligned framed aligned) beyond
    exact ⟨kept,fun _ => same.trans frame⟩

theorem epilogue_arrives (respects : Respects M) {base : U32} (at_ : Aligned base) (holds : InFrame c.fp base s)
    (arrives : Arrives M (epilogue c frameSize) s i t) : InFrame c.fp base t := by
  obtain ⟨aligned,frame⟩ := holds
  have prepared : Steady M c.fp (localGet c.fp ++ (if frameSize ≠ 0 then i32c frameSize ++ op (.i32 .add) else [])) := by
    refine plains_closed (steady_closed respects c) ?_
    split <;> rfl
  rcases arrives_append arrives with inside | ⟨middle,restored,beyond⟩
  · rcases arrives_append inside with first | ⟨after,loaded,last⟩
    · obtain ⟨kept,same⟩ := prepared.within _ _ _ aligned first
      exact ⟨kept,same.trans frame⟩
    · obtain ⟨kept,same⟩ := prepared.done _ _ aligned loaded
      rcases arrives_one last with ⟨_,rfl⟩ | ⟨_,_,_,_,_,impossible,_⟩
      · exact ⟨kept,same.trans frame⟩
      · cases impossible
  · rw [epilogue_restores frame] at restored
    cases restored
    have moved : InFrame c.fp base {s with sp := base + BitVec.ofInt 32 frameSize} :=
      ⟨aligned_add at_ (aligned_size framed.rounded),frame⟩
    split at beyond
    · rcases arrives_one beyond with ⟨_,rfl⟩ | ⟨_,_,_,_,_,impossible,_⟩
      · exact moved
      · cases impossible
    · cases beyond

theorem frame_kept {base : U32} (at_ : Aligned base) :
    Wasm.Kept M (body ++ [.code (epilogue c frameSize)]) (InFrame c.fp base) where
  stack _ _ holds := holds
  code code member s s' holds executed := by
    rcases List.mem_append.mp member with statement | last
    · obtain ⟨kept,same⟩ := (framed.body code statement).done s s' holds.1 executed
      exact ⟨kept,same.trans holds.2⟩
    · cases List.mem_singleton.mp last
      obtain ⟨pointer,same⟩ := epilogue_run holds.2 executed
      refine ⟨?_,same ▸ holds.2⟩
      rw [pointer]
      exact aligned_add at_ (aligned_size framed.rounded)

-- Once the entry code is done, every point of the run is in the frame.
theorem framed_visits (aligned : Aligned s.sp) (visits : Visits M ⟨framedBody c frameSize params body,[],s⟩ p) :
    p = ⟨framedBody c frameSize params body,[],s⟩ ∨
      (p.Within (body ++ [.code (epilogue c frameSize)]) ∧ InFrame c.fp (s.sp - BitVec.ofInt 32 frameSize) p.state) := by
  rcases visits_first rfl visits with start | ⟨q,stepped,after⟩
  · exact .inl start
  right
  have base := base_aligned framed aligned
  simp only [Flow.step] at stepped
  cases executed : execAll M (prologue c frameSize ++ params) s with
  | error e =>
    rw [executed] at stepped
    cases stepped
  | ok entered =>
    rw [executed] at stepped
    cases stepped
    have inside := entry_run framed aligned executed
    exact visits_keeps (frame_kept framed base) ⟨fun _ member => member,fun _ member => by cases member⟩ inside after

-- Wherever the function comes to, the stack pointer is aligned, and what it
-- reads as its frame pointer is where its frame begins.
theorem framed_arrives (respects : Respects M) (aligned : Aligned s.sp)
    (visits : Visits M ⟨framedBody c frameSize params body,[],s⟩ p) (next : p.rest = .code code :: rest)
    (arrives : Arrives M code p.state i t) :
    Aligned t.sp ∧ (i = .localGet c.fp → t.locals c.fp = .i32 (s.sp - BitVec.ofInt 32 frameSize)) := by
  rcases framed_visits framed aligned visits with rfl | ⟨⟨present,_⟩,holds⟩
  · cases next
    exact entry_arrives framed respects aligned arrives
  · have member := present (.code code) (next ▸ List.mem_cons_self ..)
    rcases List.mem_append.mp member with statement | last
    · obtain ⟨kept,same⟩ := (framed.body code statement).within _ _ _ holds.1 arrives
      exact ⟨kept,fun _ => same.trans holds.2⟩
    · cases List.mem_singleton.mp last
      obtain ⟨kept,same⟩ := epilogue_arrives framed respects (base_aligned framed aligned) holds arrives
      exact ⟨kept,fun _ => same⟩

theorem framed_run {n : Nat} (aligned : Aligned s.sp) (ran : runBody M n ⟨framedBody c frameSize params body,[],s⟩ = .ok t) :
    Aligned t.sp := by
  obtain ⟨q,visits,ended,rfl⟩ := runBody_visits ran
  rcases framed_visits framed aligned visits with rfl | ⟨_,holds⟩
  · cases ended
  · exact holds.1

end

end

-- ---- the instance of a module ----

-- Every function that an instance defines is one the generator made.
def MadeBy (I : WasmInstance) : Prop :=
  ∀ i f, I.funcs i = some (.defined f) → ∃ c fn out,genFunction c fn = .ok out ∧ f.body = out.body

section
variable {I : WasmInstance} {f : FunctionCode} {s t : State} {n : Nat}

theorem direct_returns {run : FunctionCode → State → Except Stop State}
    (runs : ∀ i f, I.funcs i = some (.defined f) → ∀ s t, Aligned s.sp → run f s = .ok t → Aligned t.sp) :
    Returns (I.direct run) := by
  intro i s s' aligned called
  rcases direct_cases called with ⟨_,_,_,_,_,_,_,rfl⟩ | ⟨f,inner,ended,found,entered,ran,left⟩
  · exact aligned
  · rw [leave_sp left]
    exact runs i f found inner ended ((enter_parts entered).2 ▸ aligned) ran

theorem machine_respects (generated : MadeBy I) : Respects (I.machine n) := by
  induction n with
  | zero => exact ⟨nofun,nofun,machine_locals⟩
  | succ n ih =>
    have called : Returns (I.direct fun f s => runBody (I.machine n) n ⟨f.body,[],s⟩) := by
      apply direct_returns
      intro i f found s t aligned ran
      obtain ⟨c,fn,out,made,same⟩ := generated i f found
      obtain ⟨_,frameSize,params,body,_,framed,whole⟩ := genFunction_framed ih made
      rw [same,whole] at ran
      exact framed_run framed aligned ran
    refine ⟨called,?_,machine_locals⟩
    intro k s s' aligned reached
    obtain ⟨i,popped,found,reached⟩ := indirect_cases reached
    exact called i popped s' (target_sp found ▸ aligned) reached

-- However deep the calls are, every live activation was entered with an
-- aligned stack pointer.
theorem live_aligned (generated : MadeBy I) {sp : U32} (start : Aligned sp) {chain : List Activation}
    (live : Live I n sp chain) :
    ∀ a ∈ chain, Aligned a.state.sp ∧ ∃ i,I.funcs i = some (.defined a.function) := by
  have respects : Respects (I.machine n) := machine_respects generated
  have arrived : ∀ {a : Activation} {i : Nat} {p : Point} {code : Code} {rest : Body} {q : Plain} {t : State},
      Aligned a.state.sp → I.funcs i = some (.defined a.function) → Visits (I.machine n) a.start p →
      p.rest = .code code :: rest → Arrives (I.machine n) code p.state q t → Aligned t.sp := by
    intro a i p code rest q t aligned found visits next arrives
    obtain ⟨c,fn,out,made,same⟩ := generated i _ found
    obtain ⟨_,frameSize,params,body,_,framed,whole⟩ := genFunction_framed respects made
    unfold Activation.start at visits
    rw [same,whole] at visits
    exact (framed_arrives framed respects aligned visits next arrives).1
  induction live with
  | entered function pointer enter =>
    intro a member
    cases List.mem_singleton.mp member
    exact ⟨(enter_parts enter).2 ▸ pointer ▸ start,_,function⟩
  | call live visits next arrives function enter ih =>
    intro a member
    rcases List.mem_cons.mp member with rfl | old
    · obtain ⟨aligned,i,found⟩ := ih _ (List.mem_cons_self ..)
      have kept := arrived aligned found visits next arrives
      exact ⟨(enter_parts enter).2 ▸ kept,_,function⟩
    · exact ih a old
  | indirect live visits next arrives target function enter ih =>
    intro a member
    rcases List.mem_cons.mp member with rfl | old
    · obtain ⟨aligned,i,found⟩ := ih _ (List.mem_cons_self ..)
      have kept := arrived aligned found visits next arrives
      have popped := target_sp target
      exact ⟨(enter_parts enter).2 ▸ popped ▸ kept,_,function⟩
    · exact ih a old

end

-- ---- where the locals are placed ----

section
variable {locals : List Local} {offsets : List Nat} {off top frameSize : Nat}

theorem alignTo_multiple (n align : Nat) : align ∣ alignTo n align := Dvd.intro_left _ rfl

theorem lvarOffsets_aligned (made : lvarOffsets off locals = .ok (offsets,top)) :
    offsets.length = locals.length ∧
      ∀ (j : Nat) v o, locals[j]? = some v → offsets[j]? = some o → alignment v.align ∣ o := by
  induction locals generalizing off offsets top with
  | nil =>
    cases made
    exact ⟨rfl,fun j v o found => nomatch found⟩
  | cons v rest ih =>
    unfold lvarOffsets at made
    split at made
    · cases made
    obtain ⟨⟨later,ended⟩,one,made⟩ := bind_ok made
    cases made
    obtain ⟨same,each⟩ := ih one
    refine ⟨by simp [same],fun j u o found at_ => ?_⟩
    cases j with
    | zero =>
      cases found
      cases at_
      exact alignTo_multiple _ _
    | succ j => exact each j u o found at_

end

-- ---- the module, instantiated ----

namespace Module

def types (m : Module) : List Classes := (readEntries m.typeCount m.typeBytes).getD []

-- The type index of a function: of an import, or of a definition.
def typeIndex (m : Module) (i : Nat) : Option Nat := (m.imports.entries.map Import.typeIndex ++ m.functions.entries)[i]?

def callee (m : Module) (env : String → List Value → Memory → Except Stop (Option Value × Memory)) (i : Nat) : Option Callee := do
  let type ← m.types[← m.typeIndex i]?
  match m.imports.entries[i]? with
  | some entry => return .host type.params.length (env entry.field)
  | none => do
    let f ← m.code.entries[i - m.imports.entries.length]?
    return .defined ⟨type.params.length,f.locals.flatMap fun run => List.replicate run.1 run.2,type.result.isSome,f.body⟩

def instantiate (m : Module) (floats : FloatUnit) (env : String → List Value → Memory → Except Stop (Option Value × Memory)) :
    WasmInstance where
  floats := floats
  funcs := m.callee env
  table := m.slot
  typed := fun i t => m.typeIndex i == some t

end Module

-- An activation of this definition of the program.
def ActivationOf (prog : Program) (m : Module) (a : Activation) (fn : Global) : Prop :=
  ∃ (k : Nat) (body : FunctionBody),(definitions prog)[k]? = some fn ∧ m.code.entries[k]? = some body ∧
    a.function.body = body.body

-- The frame begins `frameSize` below the stack pointer on entry.
def frameBase (a : Activation) (frameSize : Nat) : U32 := a.state.sp - BitVec.ofInt 32 frameSize

-- The run-time address of a local: its offset in the frame.
def localAddress (a : Activation) (frameSize offset : Nat) : U32 := frameBase a frameSize + BitVec.ofInt 32 offset

-- `base` is what the activation reads as its frame pointer, wherever it does.
def FramePointer (M : Machine) (a : Activation) (fp : Nat) (base : U32) : Prop :=
  ∀ p code rest t,Visits M a.start p → p.rest = .code code :: rest → Arrives M code p.state (.localGet fp) t →
    t.locals fp = .i32 base

def framePointer (fn : Global) : Nat := fn.params.length + if fn.isVariadic then 1 else 0

-- In every chain of live activations, the locals and parameters of this kind
-- are at multiples of the alignment recorded for them.
def LocalsAligned (prog : Program) (m : Module) (kind : Local → Prop) : Prop :=
  ∀ floats env n chain,Live (m.instantiate floats env) n (BitVec.ofNat 32 m.stackPointer) chain →
    ∀ a ∈ chain, ∀ fn, ActivationOf prog m a fn → ∃ offsets frameSize,assignLvarOffsets fn.locals = .ok (offsets,frameSize) ∧
      FramePointer ((m.instantiate floats env).machine n) a (framePointer fn) (frameBase a frameSize) ∧
      ∀ (j : Nat) v o, fn.locals[j]? = some v → offsets[j]? = some o → kind v →
        v.align ∣ ((localAddress a frameSize o).toNat : Int)

section
variable {o : Options} {asm : String} {parsed prog imports : List Global} {l : Layout} {bodies : List FunctionBody}
  {data : Bytes} {m : Module} {floats : FloatUnit}
  {env : String → List Value → Memory → Except Stop (Option Value × Memory)}

theorem callee_defined {i : Nat} {f : FunctionCode} (found : m.callee env i = some (.defined f)) :
    ∃ (k : Nat) (body : FunctionBody),m.code.entries[k]? = some body ∧ f.body = body.body := by
  obtain ⟨t,_,found⟩ := Option.bind_eq_some_iff.mp found
  obtain ⟨type,_,found⟩ := Option.bind_eq_some_iff.mp found
  split at found
  · cases found
  · obtain ⟨body,at_,same⟩ := Option.bind_eq_some_iff.mp found
    cases same
    exact ⟨_,body,at_,rfl⟩

theorem body_made (passed : Passed o prog imports l bodies data) {k : Nat} {body : FunctionBody} (at_ : bodies[k]? = some body) :
    ∃ fn,(definitions prog)[k]? = some fn ∧ genFunction (functionContext (maps prog imports l) fn) fn = .ok body := by
  obtain ⟨same,each⟩ := genFunctions_bodies passed.generated
  obtain ⟨inside,_⟩ := List.getElem?_eq_some_iff.mp at_
  rw [same] at inside
  have known : (definitions prog)[k]? = some (definitions prog)[k] := List.getElem?_eq_getElem inside
  obtain ⟨body',found,made⟩ := each k _ known
  cases at_.symm.trans found
  exact ⟨_,known,made⟩

theorem instance_made (passed : Passed o prog imports l bodies data) :
    MadeBy ((assembled o prog imports l bodies data).instantiate floats env) := by
  intro i f found
  obtain ⟨k,body,at_,same⟩ := callee_defined found
  obtain ⟨fn,_,made⟩ := body_made passed at_
  exact ⟨_,fn,body,made,same⟩

theorem stack_aligned (placed : layoutGlobals o prog = .ok l) : Aligned (BitVec.ofNat 32 l.stackTop) := by
  obtain ⟨⟨dataEnd,placed⟩,_,made⟩ := bind_ok placed
  obtain ⟨⟨addr,all⟩,_,made⟩ := bind_ok made
  dsimp only at made
  split at made
  · cases made
  cases made
  have low := alignTo_rounded addr
  have high := alignTo_rounded o.stackSize
  unfold Aligned
  dsimp only
  rw [BitVec.toNat_ofNat]
  omega

-- An aligned frame aligns what is aligned in it as the frame is.
theorem address_aligned {a : Activation} {frameSize offset : Nat} {align : Int} (base : Aligned (frameBase a frameSize))
    (least : -1 ≤ align) (divides : align ∣ 16) (at_ : alignment align ∣ offset) :
    align ∣ ((localAddress a frameSize offset).toNat : Int) := by
  rcases eq_or_lt_of_le least with rfl | above
  · exact Int.neg_dvd.mpr (one_dvd _)
  obtain ⟨n,rfl⟩ := Int.eq_ofNat_of_zero_le (Int.add_one_le_iff.mpr above)
  have small : n ∣ 16 := Int.natCast_dvd_natCast.mp divides
  have inFrame : n ∣ offset := by
    unfold alignment at at_
    split at at_
    · have zero : n = 0 := by omega
      subst zero
      cases Nat.eq_zero_of_zero_dvd small
    · exact at_
  have start : n ∣ (frameBase a frameSize).toNat := small.trans (Nat.dvd_of_mod_eq_zero base)
  have word : n ∣ 2 ^ 32 := small.trans (by decide)
  refine Int.natCast_dvd_natCast.mpr ?_
  unfold localAddress
  rw [BitVec.ofInt_natCast,BitVec.toNat_add,BitVec.toNat_ofNat]
  apply (Nat.dvd_mod_iff word).mpr
  exact Nat.dvd_add start ((Nat.dvd_mod_iff word).mpr inFrame)

end

theorem locals_aligned (o : Options) (asm : String) (parsed : Program) (m : Module) (made : codegen o asm parsed = .ok m) :
    LocalsAligned parsed.reverse m fun v => -1 ≤ v.align ∧ v.align ∣ 16 := by
  obtain ⟨imports,l,bodies,data,passed,rfl⟩ := codegen_parts made
  intro floats env n chain live a member fn activation
  have madeBy : MadeBy ((assembled o parsed.reverse imports l bodies data).instantiate floats env) := instance_made passed
  obtain ⟨aligned,_⟩ := live_aligned madeBy (stack_aligned passed.placed) live a member
  obtain ⟨k,body,known,at_,same⟩ := activation
  obtain ⟨fn',known',made⟩ := body_made passed at_
  cases known.symm.trans known'
  have respects := machine_respects (n := n) madeBy
  obtain ⟨offsets,frameSize,params,statements,placed,framed,whole⟩ := genFunction_framed respects made
  refine ⟨offsets,frameSize,placed,?_,?_⟩
  · intro p code rest t visits next arrives
    unfold Activation.start at visits
    rw [same,whole] at visits
    exact (framed_arrives framed respects aligned visits next arrives).2 rfl
  · intro j v offset found place ⟨least,divides⟩
    obtain ⟨⟨offsets',top⟩,laid,ended⟩ := bind_ok placed
    cases ended
    exact address_aligned (base_aligned framed aligned) least divides ((lvarOffsets_aligned laid).2 j v offset found place)

namespace Controls

-- int g;  void _start(void) { _Alignas(align) int x; }
def start (align : Int) : Global :=
  ⟨⟨"_start",.func .void [] false,false,0,true,false⟩,1,true,none,[],[],
    [⟨⟨"x",.int false,true,0,false,false⟩,align⟩,allocaSize],none,.block [.block []]⟩

def aligning (align : Int) : Program :=
  [nameString ".L..1" "_start",nameString ".L..0" "_start",start align,
    ⟨⟨"g",.int false,false,0,false,false⟩,4,true,none,[],[],[],none,.block []⟩]

def noFloats : FloatUnit where
  f32Binary _ _ _ := 0
  f64Binary _ _ _ := 0
  f32Compare _ _ _ := false
  f64Compare _ _ _ := false
  f32Neg _ := 0
  f64Neg _ := 0
  f32Trunc _ := none
  f64Trunc _ := none
  f32OfInt _ := 0
  f64OfInt _ := 0
  demote _ := 0
  promote _ := 0

def noHost (_ : String) (_ : List Value) (memory : Memory) : Except Stop (Option Value × Memory) := .ok (none,memory)

end Controls

open Controls in
theorem locals_aligned_sixteen :
    ∃ m,codegen options "" (aligning 16) = .ok m ∧ LocalsAligned (aligning 16).reverse m fun v => -1 ≤ v.align ∧ v.align ∣ 16 := by
  have accepted : (codegen options "" (aligning 16)).toOption.isSome = true := by decide +kernel
  cases made : codegen options "" (aligning 16) with
  | error e =>
    rw [made] at accepted
    cases accepted
  | ok m => exact ⟨m,rfl,locals_aligned options "" (aligning 16) m made⟩

-- The stack begins at 1049632, a multiple of 32, and the frame has 16 bytes.
open Controls in
theorem locals_aligned_fails :
    ∃ m,codegen options "" (aligning 32) = .ok m ∧ ¬LocalsAligned (aligning 32).reverse m fun _ => True := by
  have facts : (codegen options "" (aligning 32)).toOption.map (fun m => (m.types.map (·.params.length),m.imports.entries.length,
      m.functions.entries,m.code.entries.length,m.stackPointer)) = some ([0],0,[0],1,1049632) := by decide +kernel
  have placed : (assignLvarOffsets (start 32).locals).toOption = some ([0,4],16) := by decide +kernel
  cases made : codegen options "" (aligning 32) with
  | error e =>
    rw [made] at facts
    cases facts
  | ok m =>
    refine ⟨m,rfl,fun aligned => ?_⟩
    rw [made] at facts
    simp only [Except.toOption,Option.map_some,Option.some.injEq,Prod.mk.injEq] at facts
    obtain ⟨types,imports,functions,code,pointer⟩ := facts
    obtain ⟨type,onlyType,noParams⟩ := List.map_eq_singleton_iff.mp types
    have noImports := List.eq_nil_of_length_eq_zero imports
    obtain ⟨body,onlyBody⟩ := List.length_eq_one_iff.mp code
    have start : ∃ f,(m.instantiate noFloats noHost).funcs 0 = some (.defined f) ∧ f.params = 0 ∧ f.body = body.body := by
      simp [Module.instantiate,Module.callee,Module.typeIndex,noImports,functions,onlyType,onlyBody,noParams]
    obtain ⟨f,found,bare,same⟩ := start
    have entered : f.enter ⟨[],fun _ => .i32 0,BitVec.ofNat 32 m.stackPointer,⟨fun _ => 0,1,1,Nat.le_refl _,by decide⟩⟩ =
        .ok ⟨[],localValue [] f.locals,BitVec.ofNat 32 m.stackPointer,⟨fun _ => 0,1,1,Nat.le_refl _,by decide⟩⟩ := by
      simp [FunctionCode.enter,bare]
    obtain ⟨offsets,frameSize,assigned,_,addresses⟩ := aligned noFloats noHost 0 _ (.entered found rfl entered) _
      (List.mem_singleton.mpr rfl) (start 32) ⟨0,body,rfl,by rw [onlyBody]; rfl,same⟩
    rw [assigned] at placed
    cases placed
    have wrong := addresses 0 _ 0 rfl rfl trivial
    simp only [localAddress,frameBase,pointer] at wrong
    revert wrong
    decide

end SandboxStack.Cc
