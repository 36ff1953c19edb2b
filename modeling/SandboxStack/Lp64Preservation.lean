import SandboxStack.Lp64Expressions

namespace SandboxStack.Cc.X86
open SandboxStack.X86 LittleEndian IntType

theorem wordTree_type {n : Node} (words : wordTree n = true) : ∃ ty w u, n.ty = some ty ∧ Word ty w u := by
  cases n with
  | num ty n => exact isWord_parts words
  | var ty v => exact isWord_parts (Bool.and_eq_true_iff.mp words).1
  | unary kind ty lhs =>
    simp only [wordTree,Bool.and_eq_true] at words
    exact isWord_parts words.1.2
  | binary kind ty lhs rhs =>
    simp only [wordTree,Bool.and_eq_true] at words
    exact isWord_parts words.1.1.2
  | cond ty c yes no =>
    simp only [wordTree,Bool.and_eq_true] at words
    exact isWord_parts words.1.1.1
  | _ => cases words

theorem Word.notStruct {ty : Ty} {w : Width} {u : Bool} (word : Word ty w u) : ty.isStruct = false ∧ ty.isVoid = false := by
  have known := word.known
  cases ty <;> first | exact ⟨rfl,rfl⟩ | cases known

section
variable {E : Env} {defined : String → Bool} {own : U64 → Prop} {code : List Line} {bp : U64}

-- Every node's code is right where labels are not defined twice.
theorem genExpr_correct (distinct : Distinct code) (n : Node) (typed : Typed n) (words : wordTree n = true)
    (subs : pointerSubs n) : Correct E defined own code bp n := by
  induction n with
  | num ty n =>
    obtain ⟨ty,w,u,rfl,_⟩ := isWord_parts words
    exact num_correct n
  | var ty v =>
    cases typed
    exact var_correct v rfl
  | unary kind ty lhs ih =>
    obtain ⟨operand,rule⟩ := typed
    have inner : wordTree lhs = true := (Bool.and_eq_true_iff.mp words).2
    obtain ⟨tl,w₁,u₁,left,wordL⟩ := wordTree_type inner
    obtain ⟨ty,w,u,same,word⟩ := wordTree_type words
    cases same
    have one := ih operand inner subs
    cases kind with
    | neg => exact neg_correct rule word one
    | not => cases rule; exact not_correct left wordL one
    | bitnot => exact bitnot_correct rule.symm word one
    | addr => cases words
    | deref => cases words
    | cast => exact cast_correct left wordL word one
  | binary kind ty lhs rhs ihl ihr =>
    obtain ⟨leftTyped,rightTyped,rule⟩ := typed
    have parts := words
    simp only [wordTree,Bool.and_eq_true] at parts
    obtain ⟨⟨⟨target,_⟩,wordsL⟩,wordsR⟩ := parts
    obtain ⟨tl,w₁,u₁,left,wordL⟩ := wordTree_type wordsL
    obtain ⟨tr,w₂,u₂,right,wordR⟩ := wordTree_type wordsR
    obtain ⟨ty,w,u,same,word⟩ := wordTree_type words
    cases same
    have one := ihl leftTyped wordsL subs.1
    have two := ihr rightTyped wordsR subs.2.1
    cases class_ : kind.rule with
    | arithmetic =>
      rw [class_] at rule
      exact arithmetic_correct class_ left wordL right wordR word rule subs.2.2 one two
    | shift =>
      rw [class_] at rule
      exact shift_correct class_ rule.symm right wordR word one two
    | comparison =>
      rw [class_] at rule
      cases rule.2
      exact comparison_correct class_ left (rule.1 ▸ left) wordL one two
    | logical =>
      rw [class_] at rule
      cases rule
      cases kind <;> cases class_
      · exact logand_correct distinct left wordL right wordR one two
      · exact logor_correct distinct left wordL right wordR one two
    | comma =>
      rw [class_] at rule
      cases kind <;> cases class_
      exact comma_correct left wordL rule.symm one two
    | assign =>
      rw [class_] at rule
      cases kind <;> cases class_
      obtain ⟨v,rfl⟩ := variable_parts (by simpa using target) leftTyped
      cases rule.1
      have same : rhs.ty = some v.ty := by
        rcases rule.2 with same | struct
        · exact same
        · have impossible : v.ty.isStruct = true := struct
          rw [word.notStruct.1] at impossible
          cases impossible
      exact assign_correct rfl same two
  | cond ty test yes no ihc ihy ihn =>
    obtain ⟨testTyped,yesTyped,noTyped,rule⟩ := typed
    have parts := words
    simp only [wordTree,Bool.and_eq_true] at parts
    obtain ⟨⟨⟨_,wordsC⟩,wordsY⟩,wordsN⟩ := parts
    obtain ⟨tc,w₀,u₀,condition,wordC⟩ := wordTree_type wordsC
    obtain ⟨ty,w,u,same,word⟩ := wordTree_type words
    cases same
    rcases rule with ⟨left,right⟩ | void
    · exact cond_correct distinct condition wordC left right (ihc testTyped wordsC subs.1) (ihy yesTyped wordsY subs.2.1)
        (ihn noTyped wordsN subs.2.2)
    · cases void
      cases word.notStruct.2
  | _ => cases words

end

-- The labels that a piece of code defines, and the numbers count() gave out for them.
def labels (code : List Line) : List SandboxStack.X86.Label := code.filterMap fun
  | .label l => some l
  | _ => none

structure Fresh (asm : Asm) (k k' : Nat) : Prop where
  grows : k ≤ k'
  nodup : (labels asm).Nodup
  within : ∀ l ∈ labels asm, k ≤ l.number ∧ l.number < k'

def Numbered (p : Printed) : Prop := ∀ k asm k', p k = .ok (asm,k') → Fresh asm k k'

section
variable {first second third : Asm} {k₀ k k' : Nat} {p q r : Printed}

@[simp] theorem labels_append : labels (first ++ second) = labels first ++ labels second := List.filterMap_append

theorem distinct_nodup (nodup : (labels first).Nodup) : Distinct first := by
  induction first with
  | nil =>
    intro i j l here
    simp at here
  | cons line rest ih =>
    have later : (labels rest).Nodup := (List.nodup_append.mp (@labels_append [line] rest ▸ nodup)).2.1
    have absent : ∀ (l : SandboxStack.X86.Label) (j : Nat), line = .label l → rest[j]? ≠ some (.label l) := by
      rintro l j rfl there
      have member : l ∈ labels rest := List.mem_filterMap.mpr ⟨_,List.mem_of_getElem? there,rfl⟩
      exact (List.nodup_cons.mp (nodup : (l :: labels rest).Nodup)).1 member
    intro i j l here there
    cases i with
    | zero =>
      cases j with
      | zero => rfl
      | succ j => exact absurd there (absent l j (by simpa using here))
    | succ i =>
      cases j with
      | zero => exact absurd here (absent l i (by simpa using there))
      | succ j => rw [ih later i j l (by simpa using here) (by simpa using there)]

theorem fresh_plain (none : labels first = []) : Fresh first k k := ⟨Nat.le_refl k,by simp [none],by simp [none]⟩

theorem Fresh.append (one : Fresh first k₀ k) (two : Fresh second k k') : Fresh (first ++ second) k₀ k' where
  grows := Nat.le_trans one.grows two.grows
  nodup := by
    rw [labels_append,List.nodup_append]
    refine ⟨one.nodup,two.nodup,?_⟩
    rintro l left _ right rfl
    have low := one.within l left
    have high := two.within l right
    omega
  within := by
    intro l member
    rw [labels_append,List.mem_append] at member
    rcases member with left | right
    · have low := one.within l left
      have more := two.grows
      omega
    · have high := two.within l right
      have more := one.grows
      omega

-- Two labels of a number of its own around code numbered from there on.
theorem Fresh.labelled (stem : String) (inner : Fresh first (k + 1) k') (different : stem ≠ "end")
    (same : (labels second).Perm (⟨stem,k⟩ :: ⟨"end",k⟩ :: labels first)) : Fresh second k k' where
  grows := by
    have more := inner.grows
    omega
  nodup := by
    rw [same.nodup_iff]
    have apart : ∀ s, (⟨s,k⟩ : SandboxStack.X86.Label) ∉ labels first := by
      intro s member
      have low := (inner.within _ member).1
      simp at low
    simp [apart,different,inner.nodup]
  within := by
    intro l member
    have more := inner.grows
    rcases List.mem_cons.mp (same.mem_iff.mp member) with rfl | member
    · exact ⟨Nat.le_refl k,more⟩
    rcases List.mem_cons.mp member with rfl | member
    · exact ⟨Nat.le_refl k,more⟩
    · have bounds := inner.within l member
      omega

theorem numbered_printed (none : labels first = []) : Numbered (printed first) := by
  intro k asm k' made
  cases made
  exact fresh_plain none

theorem numbered_followed (one : Numbered p) (none : labels first = []) : Numbered (followed p first) := by
  intro k asm k' made
  obtain ⟨a,generated,rfl⟩ := followed_parts made
  exact (one k a k' generated).append (fresh_plain none)

theorem numbered_refused {e : String} : Numbered fun _ => .error e := by
  intro k asm k' made
  cases made

-- What follows a check of a type is numbered as it is without the check.
theorem numbered_checked {α : Type} {x : Print α} {f : α → Printed} (all : ∀ a, x = .ok a → Numbered (f a)) :
    Numbered fun k => x >>= fun a => f a k := by
  intro k asm k' made
  obtain ⟨a,known,made⟩ := bind_ok made
  exact all a known k asm k' made

-- None of the fragments between the operands defines a label.
@[simp] theorem labels_ins (i : Instr) : labels (ins i) = [] := rfl
@[simp] theorem labels_text (t : String) : labels (text t) = [] := rfl
@[simp] theorem labels_push : labels push = [] := rfl
@[simp] theorem labels_pop (r : Reg) : labels (pop r) = [] := rfl
@[simp] theorem labels_nil : labels [] = [] := rfl
@[simp] theorem labels_jcc (c : Condition) (l : SandboxStack.X86.Label) : labels [.jcc c l] = [] := rfl

theorem labels_load (ty : Ty) : labels (load ty) = [] := by
  unfold load
  split <;> try rfl
  split <;> rfl

theorem labels_copyBytes (size : Nat) : labels (copyBytes size) = [] := by
  unfold copyBytes
  induction List.range size with
  | nil => rfl
  | cons i rest ih => simp [ih]

theorem labels_store (ty : Ty) : labels (store ty) = [] := by
  unfold store
  split <;> simp [labels_copyBytes]
  split <;> rfl

theorem labels_cmpZero (ty : Ty) : labels (cmpZero ty) = [] := by
  unfold cmpZero
  split <;> try rfl
  split <;> rfl

theorem labels_castTable (source target : TypeId) : labels (castTable source target) = [] := by
  cases source <;> cases target <;> rfl

theorem labels_cast (source target : Ty) : labels (cast source target) = [] := by
  unfold cast
  split
  · rfl
  · split
    · simp [labels_cmpZero]
    · exact labels_castTable _ _

theorem labels_genVarAddr (defined : String → Bool) (ty : Option Ty) (v : Obj) : labels (genVarAddr defined ty v) = [] := by
  unfold genVarAddr
  split
  · rfl
  · split
    · rfl
    · split
      · rfl
      · split <;> rfl

theorem labels_genNum {ty : Ty} {n : Number} (made : genNum ty n = .ok first) : labels first = [] := by
  unfold genNum at made
  split at made <;> cases made <;> rfl

theorem labels_genNeg (ty : Ty) : labels (genNeg ty) = [] := by
  unfold genNeg
  split <;> rfl

theorem labels_division (unsigned eight : Bool) (w : Width) : labels (division unsigned eight w) = [] := by
  unfold division
  cases unsigned <;> rfl

theorem labels_intBinary {kind : BinaryKind} {ty lhsTy : Ty} (made : intBinary kind ty lhsTy = .ok first) :
    labels first = [] := by
  cases kind <;> cases made <;> simp [labels_division]

theorem labels_floatBinary {sz : String} {kind : BinaryKind} (made : floatBinary sz kind = .ok first) : labels first = [] := by
  cases kind <;> cases made <;> rfl

theorem labels_longDoubleBinary {kind : BinaryKind} (made : longDoubleBinary kind = .ok first) : labels first = [] := by
  cases kind <;> cases made <;> rfl

theorem numbered_comma (one : Numbered p) (two : Numbered q) : Numbered (genComma p q) := by
  intro k asm k' made
  obtain ⟨⟨a,next⟩,left,made⟩ := bind_ok made
  obtain ⟨⟨b,last⟩,right,made⟩ := bind_ok made
  cases made
  exact (one k a next left).append (two next b k' right)

theorem numbered_assign {ty : Option Ty} (one : Numbered p) (two : Numbered q) : Numbered (genAssign ty p q) := by
  intro k asm k' made
  obtain ⟨t,_,made⟩ := bind_ok made
  obtain ⟨⟨a,next⟩,left,made⟩ := bind_ok made
  obtain ⟨⟨b,last⟩,right,made⟩ := bind_ok made
  cases made
  exact (((one k a next left).append (fresh_plain rfl)).append (two next b k' right)).append (fresh_plain (labels_store t))

theorem numbered_cond {ty : Option Ty} (one : Numbered p) (two : Numbered q) (three : Numbered r) :
    Numbered (genCond ty p q r) := by
  intro k asm k' made
  obtain ⟨⟨t,next⟩,test,made⟩ := bind_ok made
  obtain ⟨known,_,made⟩ := bind_ok made
  obtain ⟨⟨y,later⟩,yes,made⟩ := bind_ok made
  obtain ⟨⟨n,last⟩,no,made⟩ := bind_ok made
  cases made
  have inner := ((one (k + 1) t next test).append (two next y later yes)).append (three later n k' no)
  refine inner.labelled "else" (by decide) ?_
  have skip : labels [Line.jmp ⟨"end",k⟩,.label ⟨"else",k⟩] = [⟨"else",k⟩] := rfl
  have last : labels [Line.label ⟨"end",k⟩] = [⟨"end",k⟩] := rfl
  rw [List.perm_iff_count]
  intro l
  simp only [labels_append,labels_cmpZero,labels_jcc,skip,last,List.count_append,List.count_cons,List.count_nil]
  omega

theorem numbered_logical {leave : Condition} {stem : String} {stay other : Int} {lhsTy rhsTy : Option Ty}
    (different : stem ≠ "end") (one : Numbered p) (two : Numbered q) :
    Numbered (genLogical leave stem stay other lhsTy rhsTy p q) := by
  intro k asm k' made
  obtain ⟨⟨l,next⟩,left,made⟩ := bind_ok made
  obtain ⟨tl,_,made⟩ := bind_ok made
  obtain ⟨⟨r,last⟩,right,made⟩ := bind_ok made
  obtain ⟨tr,_,made⟩ := bind_ok made
  cases made
  refine ((one (k + 1) l next left).append (two next r k' right)).labelled stem different ?_
  have skip : labels [Line.jmp ⟨"end",k⟩,.label ⟨stem,k⟩] = [⟨stem,k⟩] := rfl
  have last : labels [Line.label ⟨"end",k⟩] = [⟨"end",k⟩] := rfl
  rw [List.perm_iff_count]
  intro l
  simp only [labels_append,labels_cmpZero,labels_jcc,labels_ins,skip,last,List.count_append,List.count_cons,List.count_nil]
  omega

-- The right operand first, but for a long double.
theorem numbered_right {middle last r l : Asm} {k next k' : Nat} (one : Numbered p) (two : Numbered q)
    (none : labels middle = []) (none' : labels last = []) (madeR : q k = .ok (r,next)) (madeL : p next = .ok (l,k')) :
    Fresh (r ++ middle ++ l ++ last) k k' :=
  (((two k r next madeR).append (fresh_plain none)).append (one next l k' madeL)).append (fresh_plain none')

theorem numbered_floats {kind : BinaryKind} (sz : String) (one : Numbered p) (two : Numbered q) : Numbered fun k => do
    let (r,k) ← q k
    let (l,k) ← p k
    return (r ++ pushf ++ l ++ popf 1 ++ (← floatBinary sz kind),k) := by
  intro k asm k' made
  obtain ⟨⟨r,next⟩,madeR,made⟩ := bind_ok made
  obtain ⟨⟨l,rest⟩,madeL,made⟩ := bind_ok made
  obtain ⟨last,operator,made⟩ := bind_ok made
  cases made
  rw [List.append_assoc]
  exact numbered_right one two rfl (by simpa [popf] using labels_floatBinary operator) madeR madeL

theorem numbered_integers {kind : BinaryKind} {ty : Option Ty} {tl : Ty} (one : Numbered p) (two : Numbered q) :
    Numbered fun k => do
      let ty ← typedNode ty
      let (r,k) ← q k
      let (l,k) ← p k
      return (r ++ push ++ l ++ pop .rdi ++ (← intBinary kind ty tl),k) := by
  intro k asm k' made
  obtain ⟨t,_,made⟩ := bind_ok made
  obtain ⟨⟨r,next⟩,madeR,made⟩ := bind_ok made
  obtain ⟨⟨l,rest⟩,madeL,made⟩ := bind_ok made
  obtain ⟨last,operator,made⟩ := bind_ok made
  cases made
  rw [List.append_assoc]
  exact numbered_right one two rfl (by simpa using labels_intBinary operator) madeR madeL

theorem numbered_binary {kind : BinaryKind} {ty lhsTy : Option Ty} (one : Numbered p) (two : Numbered q) :
    Numbered (genBinary kind ty lhsTy p q) := by
  refine numbered_checked fun tl _ => ?_
  cases tl with
  | float => exact numbered_floats "ss" one two
  | double => exact numbered_floats "sd" one two
  | ldouble =>
    intro k asm k' made
    obtain ⟨⟨l,next⟩,madeL,made⟩ := bind_ok made
    obtain ⟨⟨r,rest⟩,madeR,made⟩ := bind_ok made
    obtain ⟨last,operator,made⟩ := bind_ok made
    cases made
    exact ((one k l next madeL).append (two next r k' madeR)).append (fresh_plain (labels_longDoubleBinary operator))
  | _ => exact numbered_integers one two

theorem numbered_ite {c : Prop} [Decidable c] (one : Numbered p) (two : Numbered q) : Numbered (if c then p else q) := by
  split
  · exact one
  · exact two

theorem generate_numbered (defined : String → Bool) (n : Node) :
    Numbered (generate defined n).addr ∧ Numbered (generate defined n).value := by
  have loaded : ∀ {p : Printed} {ty : Option Ty}, Numbered p → Numbered (genLoaded ty p) := by
    intro p ty one
    exact numbered_checked fun t _ => numbered_followed one (labels_load t)
  induction n with
  | nullExpr => exact ⟨numbered_refused,numbered_printed rfl⟩
  | num ty n =>
    refine ⟨numbered_refused,fun k asm k' made => ?_⟩
    obtain ⟨t,_,made⟩ := bind_ok made
    obtain ⟨code,known,made⟩ := bind_ok made
    cases made
    exact fresh_plain (labels_genNum known)
  | var ty v =>
    have addr := numbered_printed (labels_genVarAddr defined ty v)
    exact ⟨addr,loaded addr⟩
  | memzero v => exact ⟨numbered_refused,numbered_printed rfl⟩
  | unary kind ty lhs ih =>
    cases kind with
    | neg => exact ⟨numbered_refused,numbered_checked fun t _ => numbered_followed ih.2 (labels_genNeg t)⟩
    | not =>
      exact ⟨numbered_refused,numbered_checked fun t _ => numbered_followed ih.2 (by simp [labels_cmpZero])⟩
    | bitnot => exact ⟨numbered_refused,numbered_followed ih.2 rfl⟩
    | addr => exact ⟨numbered_refused,ih.1⟩
    | deref => exact ⟨ih.2,loaded ih.2⟩
    | cast =>
      exact ⟨numbered_refused,numbered_checked fun source _ => numbered_checked fun target _ =>
        numbered_followed ih.2 (labels_cast source target)⟩
  | binary kind ty lhs rhs ihl ihr =>
    have assigned : Numbered (genAssign ty _ _) := numbered_assign ihl.1 ihr.2
    cases kind with
    | logand => exact ⟨numbered_refused,numbered_logical (by decide) ihl.2 ihr.2⟩
    | logor => exact ⟨numbered_refused,numbered_logical (by decide) ihl.2 ihr.2⟩
    | comma => exact ⟨numbered_comma ihl.2 ihr.1,numbered_comma ihl.2 ihr.2⟩
    | assign => exact ⟨numbered_ite assigned numbered_refused,assigned⟩
    | _ => exact ⟨numbered_refused,numbered_binary ihl.2 ihr.2⟩
  | member ty m lhs ih =>
    have addr : Numbered (followed (generate defined lhs).addr (ins (.alu .add .quad (.imm m.offset) rax))) :=
      numbered_followed ih.1 rfl
    exact ⟨addr,numbered_ite numbered_refused (loaded addr)⟩
  | cond ty test yes no ihc ihy ihn =>
    have value : Numbered (genCond test.ty _ _ _) := numbered_cond ihc.2 ihy.2 ihn.2
    exact ⟨numbered_ite value numbered_refused,value⟩
  | funcall ty funcTy lhs args retBuffer ih ihs => exact ⟨numbered_refused,numbered_refused⟩
  | unsupported ty => exact ⟨numbered_refused,numbered_refused⟩

end

-- The code of an expression among other code, whose labels have other numbers.
theorem surrounded {before asm following : Asm} {k k' : Nat} (fresh : Fresh asm k k')
    (nodup : (labels (before ++ following)).Nodup)
    (apart : ∀ l ∈ labels (before ++ following), l.number < k ∨ k' ≤ l.number) :
    Distinct (before ++ asm ++ following) ∧ At (before ++ asm ++ following) before.length asm := by
  refine ⟨distinct_nodup ?_,following,?_⟩
  · have same : (labels (before ++ asm ++ following)).Perm (labels asm ++ labels (before ++ following)) := by
      rw [List.perm_iff_count]
      intro l
      simp only [labels_append,List.count_append]
      omega
    rw [same.nodup_iff,List.nodup_append]
    refine ⟨fresh.nodup,nodup,?_⟩
    rintro l inside _ outside rfl
    have bounds := fresh.within l inside
    have other := apart l outside
    omega
  · rw [List.append_assoc,List.drop_left]

-- What running the code from `pc` to `pc'` has to do for a C result: the value in
-- the low bytes of %rax, %rsp as it was and, but for `depth` words under it, the
-- memory of C; or the fault of a division.
def Preserves (E : Env) (code : List Line) (pc pc' depth : Nat) (s : State) (ty : Option Ty) : CResult (Int × Memory) → Prop
  | .ok (z,m) => ∃ t s', wordType ty = some t ∧ Reaches E code pc s pc' s' ∧ t.value ((s'.regs .rax).setWidth t.bits) = z ∧
      s'.regs .rsp = s.regs .rsp ∧ ∀ a, ¬Below depth (s.regs .rsp) a → s'.memory a = m a
  | .error .trap => Faults E code pc s
  | .error .undefined => True

theorem correct_preserves {E : Env} {defined : String → Bool} {n : Node} {code asm : Asm} {pc k k' : Nat} {s : State}
    (correct : Correct E defined (Below (pushes n) (s.regs .rsp)) code (s.regs .rbp) n) (words : wordTree n = true)
    (made : genExpr defined n k = .ok (asm,k')) (here : At code pc asm) (room : 8 * pushes n ≤ 2 ^ 64)
    (stored : Stored (Below (pushes n) (s.regs .rsp)) (placeOf E (s.regs .rbp)) n)
    (settled : Settled (placeOf E (s.regs .rbp)) n s.memory) :
    Preserves E code pc (pc + asm.length) (pushes n) s n.ty (ceval64 (placeOf E (s.regs .rbp)) n s.memory) := by
  obtain ⟨ty,w,u,type,word⟩ := wordTree_type words
  have ready : Ready (Below (pushes n) (s.regs .rsp)) (s.regs .rbp) (pushes n) s s.memory :=
    ⟨rfl,room,fun _ below => below,fun _ _ => rfl⟩
  have ends := correct ty w u k k' asm pc (pushes n) s s.memory type word made here (Nat.le_refl _) ready stored settled
  cases value : ceval64 (placeOf E (s.regs .rbp)) n s.memory with
  | ok p =>
    rw [value] at ends
    obtain ⟨s',reached,leaves,agrees,kept⟩ := ends
    refine ⟨⟨w.bits,u⟩,s',by rw [type]; exact word.known,reached,?_,kept.sp,agrees⟩
    rw [leaves.1.low]
    exact value_of leaves.1.range
  | error e =>
    rw [value] at ends
    cases e with
    | trap => exact ends
    | undefined => trivial

-- A conversion from an enum to eight bytes is nothing but its operand's code.
theorem conversion_exact {E : Env} {defined : String → Bool} {lhs : Node} {ty : Option Ty} {before asm : Asm} {k k' : Nat}
    {s : State} (correct : Correct E defined (Below (pushes lhs) (s.regs .rsp)) (before ++ asm) (s.regs .rbp) lhs)
    (words : wordTree (.unary .cast ty lhs) = true) (made : genExpr defined (.unary .cast ty lhs) k = .ok (asm,k'))
    (here : At (before ++ asm) before.length asm) (room : 8 * pushes lhs ≤ 2 ^ 64)
    (stored : Stored (Below (pushes lhs) (s.regs .rsp)) (placeOf E (s.regs .rbp)) lhs)
    (settled : Settled (placeOf E (s.regs .rbp)) lhs s.memory)
    (preserves : Preserves E (before ++ asm) before.length (before.length + asm.length) (pushes lhs) s ty
      (ceval64 (placeOf E (s.regs .rbp)) (.unary .cast ty lhs) s.memory)) :
    Settled (placeOf E (s.regs .rbp)) (.unary .cast ty lhs) s.memory := by
  refine ⟨settled,fun _ isEnum eight z m evaluated => ?_⟩
  simp only [wordTree,Bool.and_eq_true] at words
  obtain ⟨tl,w₁,u₁,left,wordL⟩ := wordTree_type words.2
  obtain ⟨t,w,u,rfl,word⟩ := isWord_parts words.1.2
  rw [left] at isEnum
  obtain rfl : w = .quad := by
    rcases word.either with rfl | rfl
    · simp [isEight,known_type word,Width.bits,Width.bytes] at eight
    · rfl
  obtain ⟨source,known,made⟩ := bind_ok made
  rw [left] at known
  cases known
  obtain ⟨target,known,made⟩ := bind_ok made
  cases known
  obtain ⟨a,generated,rfl⟩ := followed_parts made
  have nothing : X86.cast tl t = [] := (cast_word wordL word).trans (if_neg (by simp [isEnum]))
  rw [nothing,List.append_nil] at correct here preserves
  have ready : Ready (Below (pushes lhs) (s.regs .rsp)) (s.regs .rbp) (pushes lhs) s s.memory :=
    ⟨rfl,room,fun _ below => below,fun _ _ => rfl⟩
  have ends := correct tl w₁ u₁ k k' a before.length (pushes lhs) s s.memory left wordL generated here (Nat.le_refl _) ready
    stored settled
  rw [evaluated] at ends
  obtain ⟨s₁,reached,leaves,_,_⟩ := ends
  rw [ceval64_unary word,evaluated] at preserves
  obtain ⟨t',s₂,known,reached',value,_,_⟩ := preserves
  cases (known_type word).symm.trans known
  have stop : (before ++ a)[before.length + a.length]? = none := by simp
  cases reaches_end stop reached reached'
  have full : s₁.regs .rax = BitVec.ofInt 64 ((IntType.mk 64 u).wrap z) := by
    have back := congrArg (BitVec.ofInt 64) value
    exact ((ofInt_value (t := ⟨64,u⟩)).symm.trans back : (s₁.regs .rax).setWidth 64 = _) ▸ (BitVec.setWidth_eq _).symm
  have same := (leaves.2 isEnum).symm.trans (full.trans (ofInt_wrap (t := ⟨64,u⟩)))
  exact ofInt_congruent.mp same

-- An enum widened to eight bytes is right where the upper half happens to be.
theorem lp64_expressions_preserved (E : Env) (defined : String → Bool) (n n' : Node) (before asm following : Asm) (k k' : Nat)
    (s : State) (parsed : Parsed n) (typed : addType lp64 n = .ok n') (words : wordTree n' = true) (subs : pointerSubs n')
    (made : genExpr defined n' k = .ok (asm,k')) (nodup : (labels (before ++ following)).Nodup)
    (apart : ∀ l ∈ labels (before ++ following), l.number < k ∨ k' ≤ l.number) (room : 8 * pushes n' ≤ 2 ^ 64)
    (stored : Stored (Below (pushes n') (s.regs .rsp)) (placeOf E (s.regs .rbp)) n') :
    (Settled (placeOf E (s.regs .rbp)) n' s.memory →
      Preserves E (before ++ asm ++ following) before.length (before.length + asm.length) (pushes n') s n'.ty
        (ceval64 (placeOf E (s.regs .rbp)) n' s.memory)) ∧
    (∀ ty lhs, n' = .unary .cast ty lhs → following = [] → Settled (placeOf E (s.regs .rbp)) lhs s.memory →
      (Preserves E (before ++ asm ++ following) before.length (before.length + asm.length) (pushes n') s n'.ty
        (ceval64 (placeOf E (s.regs .rbp)) n' s.memory) ↔ Settled (placeOf E (s.regs .rbp)) n' s.memory)) := by
  obtain ⟨distinct,here⟩ := surrounded ((generate_numbered defined n').2 k asm k' made) nodup apart
  have shape := addType_typed parsed typed
  have enough : Settled (placeOf E (s.regs .rbp)) n' s.memory →
      Preserves E (before ++ asm ++ following) before.length (before.length + asm.length) (pushes n') s n'.ty
        (ceval64 (placeOf E (s.regs .rbp)) n' s.memory) :=
    correct_preserves (genExpr_correct distinct n' shape words subs) words made here room stored
  refine ⟨enough,?_⟩
  rintro ty lhs rfl rfl settled
  refine ⟨fun preserves => ?_,enough⟩
  rw [List.append_nil] at distinct here preserves
  have inner : wordTree lhs = true := (Bool.and_eq_true_iff.mp words).2
  exact conversion_exact (genExpr_correct distinct lhs shape.1 inner subs) words made here room stored settled preserves

theorem wide_var {place : Obj → U64} {ty : Option Ty} {v : Obj} {m : Memory} :
    wide place (.var ty v) m = valueOf (ceval64 place (.var ty v) m) := rfl

namespace Controls

def environment : Env := ⟨fun _ => 0,fun _ => 0,0⟩
def color : Obj := ⟨"e",.enum,true,-4,false,false⟩
def one : Node := .num none ⟨1,0,0⟩
def typedAs (n : Node) : Node := ((addType lp64 n).toOption).getD .nullExpr
def codeOf (n : Node) : Asm := (((genExpr (fun _ => false) n 1).toOption).map Prod.fst).getD []

-- The variable is -5, next to the frame pointer.
def frame : State where
  regs r := match r with | .rbp => 4096 | .rsp => 4080 | _ => 0
  flags := none
  memory a := if a = 4092 then 0xfb else if a = 4093 ∨ a = 4094 ∨ a = 4095 then 0xff else 0

-- (long)e + 1 and (long)(e + 1)
def widenedFirst : Node := .binary .add none (.unary .cast (some (.long false)) (.var (some .enum) color)) one
def widenedSum : Node := .unary .cast (some (.long false)) (typedAs (.binary .add none (.var none color) one))

-- The variable is above the stack pointer.
theorem color_apart (a : U64) (inside : (a - 4092).toNat < 4) : ¬Below 1 4080 a := by
  intro below
  unfold Below at below
  bv_omega

end Controls

theorem lp64_expressions_preserved_widened :
    (ceval64 (placeOf Controls.environment 4096) (Controls.typedAs Controls.widenedFirst) Controls.frame.memory).toOption.map
      Prod.fst = some (-4) ∧
    Preserves Controls.environment ([] ++ Controls.codeOf (Controls.typedAs Controls.widenedFirst) ++ []) 0
      (0 + (Controls.codeOf (Controls.typedAs Controls.widenedFirst)).length) 1 Controls.frame
      (Controls.typedAs Controls.widenedFirst).ty
      (ceval64 (placeOf Controls.environment 4096) (Controls.typedAs Controls.widenedFirst) Controls.frame.memory) := by
  refine ⟨by decide,?_⟩
  refine (lp64_expressions_preserved Controls.environment (fun _ => false) Controls.widenedFirst
    (Controls.typedAs Controls.widenedFirst) [] (Controls.codeOf (Controls.typedAs Controls.widenedFirst)) [] 1 1
    Controls.frame ?_ rfl rfl ?_ rfl (by decide) (by simp [labels]) (by decide) ?_).1 ?_
  · exact ⟨⟨rfl,trivial⟩,trivial⟩
  · exact ⟨trivial,trivial,fun sub => nomatch sub⟩
  · refine ⟨fun t known a inside => ?_,trivial⟩
    cases known
    exact Controls.color_apart a inside
  · have loaded : ∀ place m z m', ceval64 place (.var (some .enum) Controls.color) m = .ok (z,m') →
        wide place (.var (some .enum) Controls.color) m = z := by
      intro place m z m' evaluated
      rw [wide_var,evaluated]
      rfl
    refine ⟨⟨trivial,fun _ isEnum => nomatch isEnum⟩,fun b m _ => ⟨⟨trivial,?_⟩,fun _ isEnum => nomatch isEnum⟩⟩
    intro _ _ _ z m' evaluated
    rw [loaded _ m z m' evaluated]

theorem value_found {r : CResult (Int × Memory)} {z : Int} (found : r.toOption.map Prod.fst = some z) :
    ∃ m, r = .ok (z,m) := by
  cases r with
  | error e => cases found
  | ok p => cases found; exact ⟨p.2,rfl⟩

def Controls.sumBlock : List Instr :=
  [.mov .quad (.imm 1) rax,.extend true .long .quad rax .rax,.push .rax,.lea (.mem (-4) .rbp) .rax,
    .extend true .long .quad (.mem 0 .rax) .rax,.pop .rdi,.alu .add .long rdi rax]

-- e + 1 leaves 0xfffffffc, and nothing extends its sign.
theorem lp64_expressions_preserved_fails :
    Parsed Controls.widenedSum ∧ addType lp64 Controls.widenedSum = .ok Controls.widenedSum ∧
    wordTree Controls.widenedSum = true ∧ pointerSubs Controls.widenedSum ∧
    genExpr (fun _ => false) Controls.widenedSum 1 = .ok (Controls.codeOf Controls.widenedSum,1) ∧
    Stored (Below 1 4080) (placeOf Controls.environment 4096) Controls.widenedSum ∧
    (ceval64 (placeOf Controls.environment 4096) Controls.widenedSum Controls.frame.memory).toOption.map Prod.fst = some (-4) ∧
    ¬Preserves Controls.environment (Controls.codeOf Controls.widenedSum) 0 (Controls.codeOf Controls.widenedSum).length 1
      Controls.frame Controls.widenedSum.ty
      (ceval64 (placeOf Controls.environment 4096) Controls.widenedSum Controls.frame.memory) := by
  have value : (ceval64 (placeOf Controls.environment 4096) Controls.widenedSum Controls.frame.memory).toOption.map Prod.fst =
      some (-4) := by decide
  refine ⟨?_,rfl,rfl,?_,rfl,?_,value,fun preserves => ?_⟩
  · exact ⟨⟨⟨rfl,trivial⟩,⟨trivial,trivial⟩,.inr ⟨rfl,rfl⟩⟩,trivial⟩
  · exact ⟨trivial,trivial,fun sub => nomatch sub⟩
  · refine ⟨fun t known a inside => ?_,trivial⟩
    cases known
    exact Controls.color_apart a inside
  obtain ⟨m,evaluated⟩ := value_found value
  rw [evaluated] at preserves
  obtain ⟨t,s',known,reached,low,_,_⟩ := preserves
  cases known
  have rax : (execAll Controls.environment Controls.sumBlock Controls.frame).toOption.map (fun s => s.regs .rax) =
      some 0xfffffffc := by decide
  cases ran : execAll Controls.environment Controls.sumBlock Controls.frame with
  | error e =>
    rw [ran] at rax
    cases rax
  | ok s₁ =>
    rw [ran] at rax
    have whole : At (Controls.codeOf Controls.widenedSum) 0 (Controls.sumBlock.map .instr) := ⟨[],rfl⟩
    cases reaches_end rfl (reaches_all _ whole ran) reached
    have full : s'.regs .rax = 0xfffffffc := Option.some.inj rax
    rw [full] at low
    exact absurd low (by decide)

end SandboxStack.Cc.X86
