import SandboxStack.CanonicalValues
import SandboxStack.ExpressionSimulation
import SandboxStack.GenStmt

namespace SandboxStack.Cc
open Wasm LinearMemory

-- A run of the code, which leaves a word.
def LeavesWord (M : Machine) (code : Code) (s s' : State) (v : U32) : Prop :=
  execAll M code s = .ok s' ∧ s'.stack = .i32 v :: s.stack

-- Every run of an expression of small type leaves one canonical word.
def LeavesCanonical (c : Context) (M : Machine) (n : Node) : Prop :=
  ∀ t depth code s s',smallTypeOf n.ty = some t → genExpr c depth n = .ok code → execAll M code s = .ok s' →
    ∃ v,s'.stack = .i32 v :: s.stack ∧ Canonical t v

-- An expression, and the operands whose values it passes on: a cast that tests or narrows passes none on.
def Along (P : Node → Prop) : Node → Prop
  | .unary kind ty lhs => P (.unary kind ty lhs) ∧
      match kind with
      | .bitnot => Along P lhs
      | .cast => ∀ source target,lhs.ty = some source → ty = some target → target.isBool = false →
          narrows source target = false → Along P lhs
      | _ => True
  | .binary kind ty lhs rhs => P (.binary kind ty lhs rhs) ∧
      match kind with
      | .shl | .shr => Along P lhs
      | .comma | .assign => Along P rhs
      | _ => True
  | .cond ty test yes no => P (.cond ty test yes no) ∧ Along P yes ∧ Along P no
  | n => P n

-- What gen_expr, which does not narrow these, needs of the operands: ~ a signed type,
-- << a product in the range of the type, and a cast a value that the target has as well.
def Suits (c : Context) (M : Machine) : Node → Prop
  | .unary .bitnot ty lhs => ∀ t depth code s s',smallTypeOf ty = some t → genExpr c depth (.unary .bitnot ty lhs) = .ok code →
      execAll M code s = .ok s' → t.unsigned = false
  | .unary .cast ty lhs => ∀ source target t,lhs.ty = some source → ty = some target → target.smallType = some t →
      target.isBool = false → narrows source target = false → carried source target = true ∨
        ∀ depth first s s',genExpr c depth lhs = .ok first → execAll M first s = .ok s' →
          ∃ v,s'.stack = .i32 v :: s.stack ∧ t.InRange (t.value v)
  | .binary .shl ty lhs rhs => ∀ t depth first second s s₁ s₂ v k,smallTypeOf ty = some t → genExpr c depth lhs = .ok first →
      genExprAs rhs (genExpr c depth rhs) (some .i32) = .ok second → LeavesWord M first s s₁ v → LeavesWord M second s₁ s₂ k →
      t.InRange ((IntType.mk 32 t.unsigned).wrap (t.value v * 2 ^ (k.toNat % 32)))
  | _ => True

-- What the types alone tell of it.
def Fitting : Node → Prop
  | .unary .bitnot ty _ => ∀ t,smallTypeOf ty = some t → t.unsigned = false
  | .unary .cast ty lhs => ∀ source target t,lhs.ty = some source → ty = some target → target.smallType = some t →
      target.isBool = false → narrows source target = false → carried source target = true
  | .binary .shl ty _ _ => smallTypeOf ty = none
  | _ => True

-- What is called leaves values of its type.
def Answers (c : Context) (M : Machine) (t : IntType) (funcTy : Ty) (lhs : Node) : Prop :=
  match callee lhs with
  | some fn => fn.name ≠ "__builtin_wasm_memory_size" ∧ fn.name ≠ "__builtin_wasm_memory_grow" ∧
      ∀ i,funcIdx c fn = .ok i → ∀ s s',M.direct i s = .ok s' → Top t s'
  | none => ∀ s s',M.indirect (c.sigIndex funcTy) s = .ok s' → Top t s'

def Answered (c : Context) (M : Machine) : Node → Prop
  | .funcall ty funcTy lhs _ _ => ∀ t,smallTypeOf ty = some t → Answers c M t funcTy lhs
  | _ => True

section
variable {M : Machine} {c : Context} {G : Typing} {ty : Ty} {t : IntType} {s s' : State} {code : Code}

theorem along_head {P : Node → Prop} {n : Node} (along : Along P n) : P n := by
  cases n <;> first | exact along | exact along.1

theorem along_mono {P Q : Node → Prop} (given : ∀ n,P n → Q n) {n : Node} (along : Along P n) : Along Q n := by
  induction n with
  | unary kind ty lhs ih =>
    refine ⟨given _ along.1,?_⟩
    cases kind with
    | bitnot => exact ih along.2
    | cast => exact fun source target origin result ordinary kept => ih (along.2 source target origin result ordinary kept)
    | _ => trivial
  | binary kind ty lhs rhs ihl ihr =>
    refine ⟨given _ along.1,?_⟩
    cases kind with
    | shl | shr => exact ihl along.2
    | comma | assign => exact ihr along.2
    | _ => trivial
  | cond ty test yes no _ ihy ihn => exact ⟨given _ along.1,ihy along.2.1,ihn along.2.2⟩
  | _ => exact given _ along

theorem fitting_suits {n : Node} (fitting : Fitting n) : Suits c M n := by
  cases n with
  | unary kind ty lhs =>
    cases kind with
    | bitnot => exact fun t _ _ _ _ small _ _ => fitting t small
    | cast =>
      intro source target t origin result small ordinary kept
      exact .inl (fitting source target t origin result small ordinary kept)
    | _ => trivial
  | binary kind ty lhs rhs =>
    cases kind with
    | shl =>
      intro t _ _ _ _ _ _ _ _ small
      cases fitting.symm.trans small
    | _ => trivial
  | _ => trivial

-- An expression that the generator accepts in code that validates.
structure Sound (c : Context) (G : Typing) (n : Node) : Prop where
  shaped : Shaped n
  ranked : Ranked n
  sound : (sides c G n).value

-- What is on top was put there by the expression, and nothing else was.
theorem framed_canonical (numbered : Numbered c G) (calls : CallsArity G M) {n : Node} {depth : Nat} (sound : Sound c G n)
    (type : n.ty = some ty) (small : ty.smallType = some t) (made : genExpr c depth n = .ok code)
    (ran : execAll M code s = .ok s') (top : Top t s') : ∃ v,s'.stack = .i32 v :: s.stack ∧ Canonical t v := by
  have pushed := (generated_valid numbered n sound.shaped).2 sound.sound depth code made
  rw [type,small_class small] at pushed
  obtain ⟨x,stack⟩ := pushes_one calls pushed ran
  obtain ⟨v,rest,top,canonical⟩ := top
  rw [top] at stack
  cases stack
  exact ⟨v,top,canonical⟩

theorem loaded_keeps {gen : Gen Code} (small : ty.smallType = some t) (made : loaded (some ty) gen = .ok code)
    (ran : execAll M code s = .ok s') : Top t s' := by
  obtain ⟨first,_,made⟩ := bind_ok made
  obtain ⟨fetched,load,made⟩ := bind_ok made
  cases made
  obtain ⟨middle,_,second⟩ := append_parts ran
  exact load_top small load second

theorem store_parts (small : ty.smallType = some t) (made : store ty = .ok code) : ∃ o align,code = [.plain (.store o align)] := by
  cases ty <;> cases small <;> (cases made; exact ⟨_,_,rfl⟩)

-- A value put in a scratch local and stored is what the local gives back.
theorem saved_top {i align : Nat} {o : StoreOp} {valued held stored : State} (top : Top t valued)
    (tee : execAll M (localTee i) valued = .ok held) (store : execAll M [.plain (.store o align)] held = .ok stored)
    (get : execAll M (localGet i) stored = .ok s') : Top t s' := by
  obtain ⟨v,rest,stack,canonical⟩ := top
  obtain ⟨_,tee,ended⟩ := execAll_parts tee
  cases ended
  obtain ⟨_,store,ended⟩ := execAll_parts store
  cases ended
  obtain ⟨_,get,ended⟩ := execAll_parts get
  cases ended
  rw [Instr.exec] at store
  have kept := (quiet_kept rfl store).1
  rw [Instr.exec] at tee get
  unfold Plain.exec at tee get
  dsimp only at tee get
  rw [stack] at tee
  cases tee
  cases get
  have same : stored.locals i = .i32 v := by
    rw [kept]
    exact Function.update_self ..
  exact ⟨v,stored.stack,congrArg (· :: stored.stack) same,canonical⟩

theorem target_answers {funcTy : Ty} {lhs : Node} {gen : Gen Code} (answers : Answers c M t funcTy lhs)
    (made : genTarget c funcTy lhs gen = .ok code) (ran : execAll M code s = .ok s') : Top t s' := by
  unfold genTarget at made
  unfold Answers at answers
  split at made
  · rename_i fn direct
    rw [direct] at answers
    obtain ⟨i,index,made⟩ := bind_ok made
    cases made
    obtain ⟨middle,called,ended⟩ := execAll_parts ran
    cases ended
    exact answers.2.2 i index s s' called
  · rename_i indirect
    rw [indirect] at answers
    obtain ⟨first,_,made⟩ := bind_ok made
    cases made
    obtain ⟨middle,_,last⟩ := append_parts ran
    obtain ⟨after,called,ended⟩ := execAll_parts last
    cases ended
    exact answers middle s' called

-- Nothing that follows the call of a scalar function changes what it left.
theorem call_answers {funcTy : Ty} {lhs : Node} {args : List Node} {depth : Nat} {type : Option Ty}
    (answers : Answers c M t funcTy lhs) (made : genExpr c depth (.funcall type funcTy lhs args none) = .ok code)
    (ran : execAll M code s = .ok s') : Top t s' := by
  have special : ∀ fn,callee lhs = some fn → fn.name ≠ "__builtin_wasm_memory_size" ∧ fn.name ≠ "__builtin_wasm_memory_grow" := by
    intro fn direct
    unfold Answers at answers
    rw [direct] at answers
    exact ⟨answers.1,answers.2.1⟩
  rcases funcall_parts made with ⟨name,_⟩ | ⟨name,_⟩ | ⟨_,_,_,_,_,_,_,target,_,_,called,kinds⟩
  · obtain ⟨fn,direct,name⟩ := Option.map_eq_some_iff.mp name
    exact absurd name (special fn direct).1
  · obtain ⟨fn,direct,name⟩ := Option.map_eq_some_iff.mp name
    exact absurd name (special fn direct).2
  · rcases kinds with ⟨_,stored,size,_,_,rfl⟩ | ⟨_,rfl⟩
    · obtain ⟨_,_,ran⟩ := append_parts ran
      obtain ⟨_,_,ran⟩ := append_parts ran
      obtain ⟨_,_,ran⟩ := append_parts ran
      obtain ⟨_,_,ran⟩ := append_parts ran
      obtain ⟨_,_,ran⟩ := append_parts ran
      obtain ⟨answered,returned,ran⟩ := append_parts ran
      obtain ⟨raised,moved,ended⟩ := append_parts ran
      rw [raised_run] at moved
      cases moved
      cases ended
      have top := target_answers answers called returned
      exact top
    · obtain ⟨_,_,ran⟩ := append_parts ran
      obtain ⟨_,_,ran⟩ := append_parts ran
      obtain ⟨answered,returned,ended⟩ := append_parts ran
      cases ended
      exact target_answers answers called returned

def Keeps (c : Context) (G : Typing) (M : Machine) (n : Node) : Prop :=
  Sound c G n → Along (Answered c M) n → Along (Suits c M) n → Along (LeavesCanonical c M) n

theorem unary_keeps (numbered : Numbered c G) (calls : CallsArity G M) {kind : UnaryKind} {type : Option Ty} {lhs : Node}
    (ih : Keeps c G M lhs) : Keeps c G M (.unary kind type lhs) := by
  intro sound answered along
  have given := sound
  obtain ⟨⟨inner,typed⟩,ranked,valid⟩ := given
  cases kind with
  | neg | addr =>
    refine ⟨fun t depth code s s' small _ _ => ?_,trivial⟩
    have large : smallTypeOf type = none := ranked
    cases large.symm.trans small
  | not =>
    refine ⟨fun t depth code s s' small _ _ => ?_,trivial⟩
    cases typed
    cases small
  | deref =>
    refine ⟨fun t depth code s s' small made ran => ?_,trivial⟩
    obtain ⟨ty,rfl,small⟩ := Option.bind_eq_some_iff.mp small
    exact framed_canonical numbered calls sound rfl small made ran (loaded_keeps small made ran)
  | bitnot =>
    have lower := ih ⟨inner,ranked,valid.1⟩ answered.2 along.2
    refine ⟨fun t depth code s s' small made ran => ?_,lower⟩
    have signed := along.1 t depth code s s' small made ran
    obtain ⟨ty,rfl,small⟩ := Option.bind_eq_some_iff.mp small
    have same : lhs.ty = some ty := typed.symm
    obtain ⟨first,one,rfl⟩ := bitnot_parts same small made
    obtain ⟨middle,before,after⟩ := append_parts ran
    have known : smallTypeOf lhs.ty = some t := by rw [same]; exact small
    obtain ⟨v,top,canonical⟩ := along_head lower t depth first s middle known one before
    rw [complemented_run top] at after
    cases after
    exact ⟨_,rfl,(canonical_not small canonical).mpr signed⟩
  | cast =>
    have lower : ∀ source target,lhs.ty = some source → type = some target → target.isBool = false →
        narrows source target = false → Along (LeavesCanonical c M) lhs := fun source target origin result ordinary kept =>
      ih ⟨inner,ranked,valid.1⟩ (answered.2 source target origin result ordinary kept)
        (along.2 source target origin result ordinary kept)
    refine ⟨fun t depth code s s' small made ran => ?_,lower⟩
    obtain ⟨ty,rfl,small⟩ := Option.bind_eq_some_iff.mp small
    have parts : (do return (← genExpr c depth lhs) ++ (← cast lhs.ty ty)) = Except.ok code := made
    obtain ⟨first,one,parts⟩ := bind_ok parts
    obtain ⟨second,two,parts⟩ := bind_ok parts
    cases parts
    obtain ⟨middle,before,after⟩ := append_parts ran
    refine framed_canonical numbered calls sound rfl small made ran (cast_top small two (fun boolean => valid.2 boolean) ?_ after)
    intro source origin ordinary kept
    rcases along.1 source ty t origin rfl small ordinary kept with fits | ranged
    · obtain ⟨ts,known⟩ : ∃ ts,source.smallType = some ts := Option.isSome_iff_exists.mp (carried_small fits)
      have operand : smallTypeOf lhs.ty = some ts := by rw [origin]; exact known
      obtain ⟨v,top,canonical⟩ := along_head (lower source ty origin rfl ordinary kept) ts depth first s middle operand one before
      exact ⟨v,s.stack,top,carried_canonical known small ordinary kept fits canonical⟩
    · obtain ⟨v,top,range⟩ := ranged depth first s middle one before
      exact ⟨v,s.stack,top,(canonical_range (small_narrow small)).mpr range⟩

-- A run of a shift: of its operand, of its count, and of the operator.
theorem shift_run (numbered : Numbered c G) (calls : CallsArity G M) {kind : BinaryKind} {lhs rhs : Node} {depth : Nat}
    (shift : kind.rule = .shift) (sound : Sound c G (.binary kind (some ty) lhs rhs)) (small : ty.smallType = some t)
    (lower : LeavesCanonical c M lhs) (made : genExpr c depth (.binary kind (some ty) lhs rhs) = .ok code)
    (ran : execAll M code s = .ok s') :
    ∃ value count s₁ s₂ v k o r,genExpr c depth lhs = .ok value ∧ genExprAs rhs (genExpr c depth rhs) (some .i32) = .ok count ∧
      LeavesWord M value s s₁ v ∧ LeavesWord M count s₁ s₂ k ∧ Canonical t v ∧
      intOp kind false ty.isUnsigned = .ok (.i32 o) ∧ o.eval v k = .ok r ∧ s'.stack = .i32 r :: s.stack := by
  have given := sound
  obtain ⟨⟨_,second,typed⟩,_,valid⟩ := given
  rw [shift] at typed
  unfold sides at valid
  rw [shift] at valid
  have same : lhs.ty = some ty := typed.symm
  have made : genBinary kind (some ty) lhs rhs (genExpr c depth lhs) (genExpr c depth rhs) = .ok code := by
    cases kind <;> first | cases shift; done | exact made
  obtain ⟨value,count,o,one,two,three,rfl⟩ := shift_parts shift same small made
  obtain ⟨o,rfl⟩ : ∃ o',o = .i32 o' := by
    cases kind <;> first | cases shift; done | skip
    · cases three
      exact ⟨_,rfl⟩
    · cases unsigned : ty.isUnsigned
      all_goals
        rw [unsigned] at three
        cases three
        exact ⟨_,rfl⟩
  obtain ⟨s₂,operands,last⟩ := append_parts ran
  obtain ⟨s₁,before,after⟩ := append_parts operands
  have known : smallTypeOf lhs.ty = some t := by rw [same]; exact small
  obtain ⟨v,top,canonical⟩ := lower t depth value s s₁ known one before
  have pushed := genExprAs_checks two fun other generated =>
    (generated_valid numbered rhs second).2 valid.2.1 depth other generated
  obtain ⟨x,stack⟩ := pushes_one calls pushed after
  obtain ⟨results,evaluated,rfl⟩ := numeric_parts last
  obtain ⟨a,k,r,below,split,combined,rfl⟩ := word_parts evaluated
  have whole := stack
  rw [stack,top] at split
  cases split
  exact ⟨value,count,s₁,s₂,v,k,o,r,one,two,⟨before,top⟩,⟨after,whole⟩,canonical,three,combined,rfl⟩

theorem binary_keeps (numbered : Numbered c G) (calls : CallsArity G M) {kind : BinaryKind} {type : Option Ty} {lhs rhs : Node}
    (left : Keeps c G M lhs) (right : Keeps c G M rhs) : Keeps c G M (.binary kind type lhs rhs) := by
  intro sound answered along
  have given := sound
  obtain ⟨⟨first,second,typed⟩,ranked,valid⟩ := given
  cases kind with
  | add | sub | mul | div | mod | bitand | bitor | bitxor =>
    refine ⟨fun t depth code s s' small _ _ => ?_,trivial⟩
    have large : smallTypeOf type = none := ranked
    cases large.symm.trans small
  | eq | ne | lt | le =>
    refine ⟨fun t depth code s s' small _ _ => ?_,trivial⟩
    cases typed.2.2
    cases small
  | logand | logor =>
    refine ⟨fun t depth code s s' small _ _ => ?_,trivial⟩
    cases typed
    cases small
  | shl =>
    have lower := left ⟨first,ranked,valid.1⟩ answered.2 along.2
    refine ⟨fun t depth code s s' small made ran => ?_,lower⟩
    have suits := along.1 t depth
    obtain ⟨ty,rfl,small⟩ := Option.bind_eq_some_iff.mp small
    obtain ⟨value,count,s₁,s₂,v,k,o,r,one,two,operand,counted,_,chosen,shifted,stack⟩ :=
      shift_run numbered calls rfl sound small (along_head lower) made ran
    cases chosen
    cases shifted
    exact ⟨_,stack,(canonical_shl small _).mpr (suits value count s s₁ s₂ v k small one two operand counted)⟩
  | shr =>
    have lower := left ⟨first,ranked,valid.1⟩ answered.2 along.2
    refine ⟨fun t depth code s s' small made ran => ?_,lower⟩
    obtain ⟨ty,rfl,small⟩ := Option.bind_eq_some_iff.mp small
    obtain ⟨value,count,s₁,s₂,v,k,o,r,one,two,operand,counted,canonical,chosen,shifted,stack⟩ :=
      shift_run numbered calls rfl sound small (along_head lower) made ran
    have shift := canonical_shr small canonical (k.toNat % 32)
    refine ⟨r,stack,?_⟩
    cases unsigned : ty.isUnsigned
    all_goals
      rw [unsigned] at chosen shift
      cases chosen
      cases shifted
      exact shift
  | comma =>
    have lower := right ⟨second,ranked,valid.2⟩ answered.2 along.2
    refine ⟨fun t depth code s s' small made ran => ?_,lower⟩
    obtain ⟨ty,rfl,small⟩ := Option.bind_eq_some_iff.mp small
    have same : rhs.ty = some ty := typed.symm
    obtain ⟨dropped,one,parts⟩ := bind_ok made
    obtain ⟨value,two,parts⟩ := bind_ok parts
    cases parts
    obtain ⟨middle,_,after⟩ := append_parts ran
    have known : smallTypeOf rhs.ty = some t := by rw [same]; exact small
    obtain ⟨v,top,canonical⟩ := along_head lower t depth value middle s' known two after
    exact framed_canonical numbered calls sound rfl small made ran ⟨v,_,top,canonical⟩
  | assign =>
    have lower := right ⟨second,ranked,valid.2.1⟩ answered.2 along.2
    refine ⟨fun t depth code s s' small made ran => ?_,lower⟩
    obtain ⟨ty,rfl,small⟩ := Option.bind_eq_some_iff.mp small
    have scalar := small_scalar small
    have class_ := small_class small
    have same : rhs.ty = some ty := by
      rcases typed.2.2 with same | struct
      · exact same
      · have struct : ty.isStruct = true := struct
        rw [scalar.1] at struct
        cases struct
    have parts : genAssign c (some ty) lhs rhs (genAddr c depth lhs) (genExpr c depth rhs) = .ok code := made
    unfold genAssign at parts
    split at parts
    · cases parts
    dsimp only at parts
    rw [if_neg (by rw [scalar.1]; decide),class_] at parts
    obtain ⟨addr,_,parts⟩ := bind_ok parts
    obtain ⟨value,two,parts⟩ := bind_ok parts
    obtain ⟨scratch,three,parts⟩ := bind_ok parts
    obtain ⟨saved,four,parts⟩ := bind_ok parts
    cases three
    cases parts
    obtain ⟨stored,first,last⟩ := append_parts ran
    obtain ⟨held,first,second⟩ := append_parts first
    obtain ⟨valued,first,third⟩ := append_parts first
    obtain ⟨addressed,_,fourth⟩ := append_parts first
    have known : smallTypeOf rhs.ty = some t := by rw [same]; exact small
    obtain ⟨v,top,canonical⟩ := along_head lower t depth value addressed valued known (as_same same class_ two) fourth
    obtain ⟨o,align,rfl⟩ := store_parts small four
    exact framed_canonical numbered calls sound rfl small made ran (saved_top ⟨v,_,top,canonical⟩ third second last)

theorem cond_keeps (numbered : Numbered c G) (calls : CallsArity G M) {type : Option Ty} {test yes no : Node}
    (one : Keeps c G M yes) (two : Keeps c G M no) : Keeps c G M (.cond type test yes no) := by
  intro sound answered along
  have given := sound
  obtain ⟨⟨_,first,second,typed⟩,ranked,valid⟩ := given
  have taken := one ⟨first,ranked.1,valid.2.1⟩ answered.2.1 along.2.1
  have skipped := two ⟨second,ranked.2,valid.2.2.1⟩ answered.2.2 along.2.2
  refine ⟨fun t depth code s s' small made ran => ?_,taken,skipped⟩
  obtain ⟨ty,rfl,small⟩ := Option.bind_eq_some_iff.mp small
  have class_ := small_class small
  have types : yes.ty = some ty ∧ no.ty = some ty := by
    rcases typed with same | void
    · exact same
    · cases void
      cases small
  have parts : genConditional (some ty) depth test yes no (genExpr c depth test) (genExpr c (depth + 1) yes)
      (genExpr c (depth + 1) no) = .ok code := made
  obtain ⟨tested,_,parts⟩ := bind_ok parts
  obtain ⟨_,_,parts⟩ := bind_ok parts
  obtain ⟨yesCode,three,parts⟩ := bind_ok parts
  obtain ⟨noCode,four,parts⟩ := bind_ok parts
  cases parts
  rw [class_] at three four
  obtain ⟨middle,_,branch⟩ := append_parts ran
  obtain ⟨after,executed,ended⟩ := execAll_parts branch
  cases ended
  rw [Instr.exec] at executed
  have known : ∀ {n : Node},n.ty = some ty → smallTypeOf n.ty = some t := fun same => by rw [same]; exact small
  split at executed
  · split at executed
    · obtain ⟨v,top,canonical⟩ := along_head taken t _ yesCode _ s' (known types.1) (as_same types.1 class_ three) executed
      exact framed_canonical numbered calls sound rfl small made ran ⟨v,_,top,canonical⟩
    · obtain ⟨v,top,canonical⟩ := along_head skipped t _ noCode _ s' (known types.2) (as_same types.2 class_ four) executed
      exact framed_canonical numbered calls sound rfl small made ran ⟨v,_,top,canonical⟩
  · cases executed

theorem node_keeps (numbered : Numbered c G) (calls : CallsArity G M) (n : Node) : Keeps c G M n := by
  induction n with
  | nullExpr | memzero v =>
    intro _ _ _ t depth code s s' small
    cases small
  | num type number =>
    intro sound _ _ t depth code s s' small made ran
    have canonical := sound.ranked t small
    obtain ⟨ty,rfl,small⟩ := Option.bind_eq_some_iff.mp small
    cases made
    unfold genNum at ran
    rw [small_class small] at ran
    cases ran
    exact ⟨_,rfl,canonical⟩
  | var type v =>
    intro sound _ _ t depth code s s' small made ran
    obtain ⟨ty,rfl,small⟩ := Option.bind_eq_some_iff.mp small
    exact framed_canonical numbered calls sound rfl small made ran (loaded_keeps small made ran)
  | unary kind type lhs ih => exact unary_keeps numbered calls ih
  | binary kind type lhs rhs ihl ihr => exact binary_keeps numbered calls ihl ihr
  | member type m lhs ih =>
    intro sound _ _ t depth code s s' small made ran
    obtain ⟨ty,rfl,small⟩ := Option.bind_eq_some_iff.mp small
    have parts : (if m.isBitfield then .error "bitfields are not supported" else
      loaded (some ty) (genAddr c depth (.member (some ty) m lhs))) = Except.ok code := made
    split at parts
    · cases parts
    · exact framed_canonical numbered calls sound rfl small made ran (loaded_keeps small parts ran)
  | cond type test yes no ihc ihy ihn => exact cond_keeps numbered calls ihy ihn
  | funcall type funcTy lhs args retBuffer ih ihs =>
    intro sound answered _ t depth code s s' small made ran
    have answers := answered t small
    obtain ⟨ty,rfl,small⟩ := Option.bind_eq_some_iff.mp small
    have given := sound
    obtain ⟨⟨_,_,returnTy,_,_,_,same,buffered,_⟩,_,_⟩ := given
    cases same
    rw [(small_scalar small).1] at buffered
    obtain rfl : retBuffer = none := by simpa using buffered
    exact framed_canonical numbered calls sound rfl small made ran (call_answers answers made ran)
  | unsupported type =>
    intro _ _ _ t depth code s s' _ made
    cases made

-- The condition is necessary: what an operator that does not narrow makes of a
-- canonical operand is canonical only then.
theorem canonical_suits {n : Node} (shaped : Shaped n) (along : Along (LeavesCanonical c M) n) : Suits c M n := by
  cases n with
  | unary kind type lhs =>
    cases kind with
    | bitnot =>
      intro t depth code s s' small made ran
      obtain ⟨v',top',canonical'⟩ := along.1 t depth code s s' small made ran
      obtain ⟨ty,rfl,small⟩ := Option.bind_eq_some_iff.mp small
      have same : lhs.ty = some ty := shaped.2.symm
      obtain ⟨first,one,rfl⟩ := bitnot_parts same small made
      obtain ⟨middle,before,after⟩ := append_parts ran
      have known : smallTypeOf lhs.ty = some t := by rw [same]; exact small
      obtain ⟨v,top,canonical⟩ := along_head along.2 t depth first s middle known one before
      rw [complemented_run top] at after
      cases after
      cases top'
      exact (canonical_not small canonical).mp canonical'
    | cast =>
      intro source target t origin result small ordinary kept
      subst result
      right
      intro depth first s s' made ran
      have whole : genExpr c depth (.unary .cast (some target) lhs) = .ok (first ++ []) := by
        show (do return (← genExpr c depth lhs) ++ (← cast lhs.ty target)) = Except.ok (first ++ [])
        rw [made,origin,cast_kept small ordinary kept]
        rfl
      obtain ⟨v,top,canonical⟩ := along.1 t depth _ s s' small whole (append_done ran rfl)
      exact ⟨v,top,(canonical_range (small_narrow small)).mp canonical⟩
    | _ => trivial
  | binary kind type lhs rhs =>
    cases kind with
    | shl =>
      intro t depth first second s s₁ s₂ v k small one two operand count
      have head := along.1 t depth
      obtain ⟨ty,rfl,small⟩ := Option.bind_eq_some_iff.mp small
      have same : lhs.ty = some ty := shaped.2.2.symm
      have ran : execAll M (first ++ second ++ op (.i32 .shl)) s = .ok {s₂ with stack := .i32 (v <<< (k.toNat % 32)) :: s.stack} := by
        refine append_done (append_done operand.1 count.1) (numeric_run ?_)
        rw [count.2,operand.2]
        rfl
      obtain ⟨v',top,canonical⟩ := head _ s _ small (shl_made same small one two) ran
      cases top
      exact (canonical_shl small _).mp canonical
    | _ => trivial
  | _ => trivial

theorem along_suits (n : Node) (shaped : Shaped n) (along : Along (LeavesCanonical c M) n) : Along (Suits c M) n := by
  have head := canonical_suits shaped along
  induction n with
  | unary kind type lhs ih =>
    refine ⟨head,?_⟩
    cases kind with
    | bitnot => exact ih shaped.1 along.2 (canonical_suits shaped.1 along.2)
    | cast =>
      intro source target origin result ordinary kept
      have inner := along.2 source target origin result ordinary kept
      exact ih shaped.1 inner (canonical_suits shaped.1 inner)
    | _ => trivial
  | binary kind type lhs rhs ihl ihr =>
    refine ⟨head,?_⟩
    cases kind with
    | shl | shr => exact ihl shaped.1 along.2 (canonical_suits shaped.1 along.2)
    | comma | assign => exact ihr shaped.2.1 along.2 (canonical_suits shaped.2.1 along.2)
    | _ => trivial
  | cond type test yes no _ ihy ihn =>
    exact ⟨head,ihy shaped.2.1 along.2.1 (canonical_suits shaped.2.1 along.2.1),
      ihn shaped.2.2.1 along.2.2 (canonical_suits shaped.2.2.1 along.2.2)⟩
  | _ => exact head

-- A return puts the value in the local that the function's result is read from.
theorem returned_canonical {n : Node} {gen : Gen Code} (type : n.ty = some c.returnTy) (small : c.returnTy.smallType = some t)
    (leaves : ∀ first s s',gen = .ok first → execAll M first s = .ok s' → Top t s') (made : genReturned c n gen = .ok code)
    (ran : execAll M code s = .ok s') : ∃ v,s'.locals c.rv = .i32 v ∧ Canonical t v := by
  unfold genReturned Node.typed at made
  rw [type] at made
  obtain ⟨_,same,made⟩ := bind_ok made
  cases same
  rw [if_neg (by rw [(small_scalar small).1]; decide),small_class small] at made
  obtain ⟨first,one,made⟩ := bind_ok made
  cases made
  obtain ⟨middle,before,after⟩ := append_parts ran
  obtain ⟨v,rest,stack,canonical⟩ := leaves first s middle (as_same type (small_class small) one) before
  obtain ⟨_,set_,ended⟩ := execAll_parts after
  cases ended
  rw [Instr.exec] at set_
  unfold Plain.exec at set_
  dsimp only at set_
  rw [stack] at set_
  cases set_
  exact ⟨v,Function.update_self ..,canonical⟩

end

-- An expression as the parser builds it and add_type leaves it, whose code validates.
structure Accepted (c : Context) (G : Typing) (n : Node) : Prop where
  built : ∃ parsed,Built parsed ∧ Ranked parsed ∧ addType ilp32 parsed = .ok n
  valid : (sides c G n).value

theorem Accepted.sound {c : Context} {G : Typing} {n : Node} (accepted : Accepted c G n) : Sound c G n := by
  obtain ⟨parsed,built,ranked,typed⟩ := accepted.built
  exact ⟨addType_shaped built typed,addType_ranked ranked typed,accepted.valid⟩

namespace Controls

-- unsigned char c, the parameter of a function that returns one.
def byteParam : Obj := ⟨"c",.char true,true,0,false,false⟩
def byteContext : Context := ⟨0,.char true,fun _ => none,fun _ => none,0,fun _ => 0⟩
def byteTyping : Typing := ⟨fun i => if i = 3 then some .i64 else if i = 4 then some .f32 else if i = 5 then some .f64 else some .i32,
  fun _ => none,fun _ => none⟩
def byteInstance : WasmInstance := ⟨silentFloats,fun _ => none,fun _ => none,fun _ _ => false⟩
def byteFrame : State :=
  ⟨[],fun _ => .i32 1024,1024,⟨fun a => if a = 1024 then 255 else 0,1,1,onePage_grown,onePage_addressable⟩⟩

-- (unsigned char)(c << 4)
def shifted : Node := .unary .cast (some (.char true))
  (.binary .shl (some (.char true)) (.var (some (.char true)) byteParam) (.num (some (.int false)) ⟨4,0,0⟩))

-- c = c + 1
def incremented : Node :=
  .binary .assign none (.var none byteParam) (.binary .add none (.var none byteParam) (.num none ⟨1,0,0⟩))

def typedIncrement : Node := ((addType ilp32 incremented).toOption).getD .nullExpr

theorem byte_numbered : Numbered byteContext byteTyping := ⟨rfl,rfl,rfl,rfl,rfl,rfl⟩

theorem byte_entries : Entries byteTyping byteInstance := by
  constructor
  · intro _ _ _ _ known
    cases known
  · intro _ _ _ known
    cases known
  · intro _ _ _ known
    cases known

end Controls

section
open Controls

end

end SandboxStack.Cc
