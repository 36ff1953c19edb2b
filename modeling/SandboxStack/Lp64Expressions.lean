import SandboxStack.Lp64Operators

namespace SandboxStack.Cc.X86
open SandboxStack.X86 LittleEndian IntType

def placeOf (E : Env) (bp : U64) (v : Obj) : U64 :=
  if v.isLocal then bp + BitVec.ofInt 64 v.offset else if v.isTls then E.thread + E.tpoff v.name else E.symbol v.name

-- No byte of a variable is in the memory the stack may use.
def Stored (own : U64 → Prop) (place : Obj → U64) : Node → Prop
  | .var ty v => ∀ t, wordType ty = some t → ∀ a, (a - place v).toNat < t.bits / 8 → ¬own a
  | .unary _ _ lhs => Stored own place lhs
  | .binary _ _ lhs rhs => Stored own place lhs ∧ Stored own place rhs
  | .cond _ test yes no => Stored own place test ∧ Stored own place yes ∧ Stored own place no
  | _ => True

-- The words of the stack that the code of an expression uses.
def pushes : Node → Nat
  | .unary _ _ lhs => pushes lhs
  | .binary .logand _ lhs rhs | .binary .logor _ lhs rhs | .binary .comma _ lhs rhs => max (pushes lhs) (pushes rhs)
  | .binary .assign _ _ rhs => pushes rhs + 1
  | .binary _ _ lhs rhs => max (pushes rhs) (pushes lhs + 1)
  | .cond _ test yes no => max (pushes test) (max (pushes yes) (pushes no))
  | _ => 0

def Leaves (w : Width) (u : Bool) (ty : Ty) (x z : Int) (s : State) : Prop :=
  Holds w u .rax z s ∧ (isEnum (some ty) = true → s.regs .rax = BitVec.ofInt 64 x)

-- gen_expr is right about one node, wherever its code stands.
def Correct (E : Env) (defined : String → Bool) (own : U64 → Prop) (code : List Line) (bp : U64) (n : Node) : Prop :=
  ∀ ty w u k k' asm pc depth s m, n.ty = some ty → Word ty w u → (generate defined n).value k = .ok (asm,k') →
    At code pc asm → pushes n ≤ depth → Ready own bp depth s m → Stored own (placeOf E bp) n →
    Settled (placeOf E bp) n m →
    Ends E own depth code pc (pc + asm.length) s (Leaves w u ty (wide (placeOf E bp) n m)) (ceval64 (placeOf E bp) n m)

section
variable {E : Env} {defined : String → Bool} {own : U64 → Prop} {code : List Line} {bp : U64} {depth pc : Nat}
  {s s' : State} {m : Memory} {ty tl : Ty} {w w₁ : Width} {u u₁ : Bool} {z x : Int} {place : Obj → U64} {lhs rhs : Node}

theorem known_type (word : Word ty w u) : wordType (some ty) = some ⟨w.bits,u⟩ := word.known

theorem holds_full (either : w = .long ∨ w = .quad) (full : s.regs .rax = BitVec.ofInt 64 z) :
    Holds w u .rax ((IntType.mk w.bits u).wrap z) s where
  range := wrap_range
  low := by
    rw [full,truncate_of (Width.narrow either).2]
    exact (ofInt_wrap (t := ⟨w.bits,u⟩)).symm

theorem genNum_word (word : Word ty w u) (n : Number) : genNum ty n = .ok (ins (.mov .quad (.imm n.val) rax)) := by
  have known := word.known
  cases ty <;> first | rfl | cases known

theorem num_correct (n : Number) : Correct E defined own code bp (.num (some ty) n) := by
  intro ty' w u k k' asm pc depth s m type word made here deep ready stored settled
  cases type
  have value : ceval64 (placeOf E bp) (.num (some ty) n) m = .ok ((IntType.mk w.bits u).wrap n.val,m) := by
    rw [ceval64,known_type word]
  obtain ⟨line,generated,made⟩ := bind_ok made
  cases generated
  obtain ⟨line,generated,made⟩ := bind_ok made
  rw [genNum_word word] at generated
  cases generated
  cases made
  rw [value]
  exact ends_done (reaches_all [.mov .quad (.imm n.val) rax] here rfl)
    ⟨holds_full word.either rfl,fun _ => rfl⟩ ⟨rfl,rfl,rfl⟩ ready

theorem varAddr_run (defined : String → Bool) (bp : U64) (word : Word ty w u) {v : Obj} (vla : v.ty = ty) : ∃ block,
    genVarAddr defined (some ty) v = block.map .instr ∧ ∀ s, s.regs .rbp = bp → ∃ s', execAll E block s = .ok s' ∧
      Still s s' ∧ s'.regs .rax = placeOf E bp v := by
  have plain : v.ty.isVla = false ∧ ty.isFunc = false := by
    have known := word.known
    rw [vla]
    cases ty <;> first | exact ⟨rfl,rfl⟩ | cases known
  unfold genVarAddr placeOf
  simp only [plain.1,Option.map_some,Option.getD_some,plain.2,Bool.false_and,Bool.false_eq_true,if_false]
  by_cases isLocal : v.isLocal
  · simp only [isLocal,if_true]
    exact ⟨[.lea (.mem v.offset .rbp) .rax],rfl,fun s frame => ⟨_,rfl,⟨rfl,rfl,rfl⟩,by rw [← frame]; rfl⟩⟩
  · simp only [isLocal]
    by_cases isTls : v.isTls
    · simp only [isTls,if_true]
      refine ⟨[.mov .quad .thread rax,.alu .add .quad (.tpoff v.name) rax],rfl,fun s frame => ⟨_,rfl,⟨rfl,rfl,rfl⟩,?_⟩⟩
      show ((E.thread.setWidth 64 + (E.tpoff v.name).setWidth 64).setWidth 64) = _
      simp
    · simp only [isTls]
      exact ⟨[.lea (.symbol v.name) .rax],rfl,fun s frame => ⟨_,rfl,⟨rfl,rfl,rfl⟩,rfl⟩⟩

-- The bytes of a variable are those C sees.
theorem read_agrees {a : U64} {n : Nat} (small : n ≤ 8) (agrees : ∀ x, ¬own x → s.memory x = m x)
    (apart : ∀ x, (x - a).toNat < n → ¬own x) : readMem n s.memory a = readMem n m a := by
  apply readMem_congr
  intro i inside
  apply agrees
  apply apart
  bv_omega

theorem load_run {a : U64} (word : Word ty w u) (agrees : ∀ x, ¬own x → s.memory x = m x)
    (apart : ∀ x, (x - a).toNat < w.bits / 8 → ¬own x) (pointer : s.regs .rax = a) :
    ∃ block s', load ty = block.map .instr ∧ execAll E block s = .ok s' ∧ Still s s' ∧
      Leaves w u ty (readWord ⟨w.bits,u⟩ m a) (readWord ⟨w.bits,u⟩ m a) s' := by
  have here : s.regs .rax + BitVec.ofInt 64 0 = a := by simp [pointer]
  have fetched : ∀ n, n = w.bits / 8 → readMem n s.memory (s.regs .rax + BitVec.ofInt 64 0) = readMem n m a := by
    rintro n rfl
    rw [here]
    exact read_agrees (by rcases word.either with rfl | rfl <;> decide) agrees apart
  have residue : BitVec.ofInt w.bits (readWord ⟨w.bits,u⟩ m a) = BitVec.ofNat w.bits (readMem (w.bits / 8) m a) := by
    unfold readWord
    exact (ofInt_wrap (t := ⟨w.bits,u⟩)).trans (BitVec.ofInt_natCast _ _)
  have range : (IntType.mk w.bits u).InRange (readWord ⟨w.bits,u⟩ m a) := wrap_range
  rw [word.loads]
  rcases word.either with rfl | rfl
  · have low : (BitVec.ofNat 64 (readMem 4 s.memory (s.regs .rax + BitVec.ofInt 64 0))).setWidth 32 =
        BitVec.ofInt 32 (readWord ⟨32,u⟩ m a) := by
      rw [fetched 4 rfl,BitVec.setWidth_ofNat_of_le (by decide)]
      exact residue.symm
    refine ⟨[.extend true .long .quad (.mem 0 .rax) .rax],
      s.setReg .rax ((BitVec.ofInt 32 (readWord ⟨32,u⟩ m a)).signExtend 64),rfl,?_,⟨rfl,rfl,rfl⟩,⟨range,?_⟩,?_⟩
    · rw [← low]
      rfl
    · exact (truncate_of (by decide)).trans BitVec.ofInt_toInt
    · intro isEnum
      obtain ⟨_,rfl⟩ := word.enum isEnum
      exact signExtend_of (t := ⟨32,false⟩) rfl range 64
  · have low : BitVec.ofNat 64 (readMem 8 s.memory (s.regs .rax + BitVec.ofInt 64 0)) =
        BitVec.ofInt 64 (readWord ⟨64,u⟩ m a) := by
      rw [fetched 8 rfl]
      exact residue.symm
    refine ⟨[.mov .quad (.mem 0 .rax) rax],s.setReg .rax (BitVec.ofInt 64 (readWord ⟨64,u⟩ m a)),rfl,?_,⟨rfl,rfl,rfl⟩,
      ⟨range,BitVec.setWidth_eq _⟩,fun _ => rfl⟩
    rw [← low]
    rfl

theorem var_correct (v : Obj) (vla : v.ty = ty) : Correct E defined own code bp (.var (some ty) v) := by
  intro ty' w u k k' asm pc depth s m type word made here deep ready stored settled
  cases type
  have value : ceval64 (placeOf E bp) (.var (some ty) v) m = .ok (readWord ⟨w.bits,u⟩ m (placeOf E bp v),m) := by
    rw [ceval64,known_type word]
  obtain ⟨line,generated,made⟩ := bind_ok made
  cases generated
  obtain ⟨line,generated,made⟩ := bind_ok made
  cases generated
  cases made
  obtain ⟨address,same,addressed⟩ := varAddr_run (E := E) defined bp word vla
  obtain ⟨s',ran,still,rax⟩ := addressed s ready.frame
  have apart := stored _ (known_type word)
  have agrees : ∀ x, ¬own x → s'.memory x = m x := by
    rw [still.memory]
    exact ready.agrees
  obtain ⟨fetch,s'',loads,loaded,still',leaves⟩ := load_run (E := E) word agrees apart rax
  have wideValue : wide (placeOf E bp) (.var (some ty) v) m = readWord ⟨w.bits,u⟩ m (placeOf E bp v) := by
    rw [wide,value] <;> simp [valueOf]
  rw [same,loads,← List.map_append] at here ⊢
  rw [value,wideValue,List.length_map]
  refine ends_done (reaches_all _ here ?_) leaves ⟨still'.memory.trans still.memory,still'.sp.trans still.sp,
    still'.bp.trans still.bp⟩ ready
  rw [execAll_append,ran]
  exact loaded

theorem ceval64_unary (word : Word ty w u) (kind : UnaryKind) : ceval64 place (.unary kind (some ty) lhs) m =
    (ceval64 place lhs m >>= fun p => unaryMeaning false ⟨w.bits,u⟩ kind p.1 >>= fun z => .ok (z,p.2)) := by
  rw [ceval64,known_type word]
  rfl

theorem followed_parts {first : Printed} {last asm : Asm} {k k' : Nat} (made : followed first last k = .ok (asm,k')) :
    ∃ a, first k = .ok (a,k') ∧ asm = a ++ last := by
  obtain ⟨p,generated,made⟩ := bind_ok made
  cases made
  exact ⟨_,generated,rfl⟩

-- A unary operator is its operand's code and a block that never stops.
theorem unary_correct (last : Asm) {kind : UnaryKind} (typed : lhs.ty = some tl) (wordL : Word tl w₁ u₁)
    (word : Word ty w u)
    (parts : ∀ k k' asm, (generate defined (.unary kind (some ty) lhs)).value k = .ok (asm,k') →
      ∃ a, (generate defined lhs).value k = .ok (a,k') ∧ asm = a ++ last)
    (one : Correct E defined own code bp lhs)
    (runs : ∀ z m m' s, Settled (placeOf E bp) (.unary kind (some ty) lhs) m → ceval64 (placeOf E bp) lhs m = .ok (z,m') →
      Leaves w₁ u₁ tl (wide (placeOf E bp) lhs m) z s →
      ∃ y block s', unaryMeaning false ⟨w.bits,u⟩ kind z = .ok y ∧ last = block.map .instr ∧ execAll E block s = .ok s' ∧
        Still s s' ∧ Leaves w u ty (wide (placeOf E bp) (.unary kind (some ty) lhs) m) y s') :
    Correct E defined own code bp (.unary kind (some ty) lhs) := by
  intro ty' w' u' k k' asm pc depth s m type word' made here deep ready stored settled
  cases type
  obtain ⟨rfl,rfl⟩ := word.unique word'
  obtain ⟨a,generated,rfl⟩ := parts k k' asm made
  obtain ⟨front,back⟩ := at_append.mp here
  rw [ceval64_unary word,List.length_append,← Nat.add_assoc]
  refine ends_bind ready (one tl w₁ u₁ k k' a pc depth s m typed wordL generated front deep ready stored settled.1)
    fun z m' s' evaluated leaves ready' => ?_
  obtain ⟨y,block,s'',meaning,same,ran,still,left⟩ := runs z m m' s' settled evaluated leaves
  dsimp only
  rw [meaning,same,List.length_map]
  rw [same] at back
  exact ends_done (reaches_all _ back ran) left still ready'

theorem genNeg_word (word : Word ty w u) : genNeg ty = ins (.neg .rax) := by
  have known := word.known
  cases ty <;> first | rfl | cases known

theorem neg_correct (typed : lhs.ty = some ty) (word : Word ty w u) (one : Correct E defined own code bp lhs) :
    Correct E defined own code bp (.unary .neg (some ty) lhs) := by
  refine unary_correct (ins (.neg .rax)) typed word word ?_ one ?_
  · intro k k' asm made
    obtain ⟨t,known,made⟩ := bind_ok made
    cases known
    obtain ⟨a,generated,rfl⟩ := followed_parts made
    exact ⟨a,generated,by rw [genNeg_word word]⟩
  · intro z m m' s settled evaluated leaves
    refine ⟨_,[.neg .rax],(s.setReg .rax (-s.regs .rax)).unflagged,rfl,rfl,rfl,⟨rfl,rfl,rfl⟩,⟨wrap_range,?_⟩,?_⟩
    · show (-s.regs .rax).setWidth w.bits = _
      rw [BitVec.setWidth_neg_of_le (Width.narrow word.either).2,leaves.1.low,← BitVec.ofInt_neg]
      exact (ofInt_wrap (t := ⟨w.bits,u⟩)).symm
    · intro isEnum
      show -s.regs .rax = _
      rw [leaves.2 isEnum,wide,BitVec.ofInt_neg]

theorem bitnot_correct (typed : lhs.ty = some ty) (word : Word ty w u) (one : Correct E defined own code bp lhs) :
    Correct E defined own code bp (.unary .bitnot (some ty) lhs) := by
  refine unary_correct (ins (.not .rax)) typed word word ?_ one ?_
  · intro k k' asm made
    exact followed_parts made
  · intro z m m' s settled evaluated leaves
    have flipped : ∀ (n : Nat) (y : Int), ~~~BitVec.ofInt n y = BitVec.ofInt n (-y - 1) := by
      intro n y
      have ones : (-1 : BitVec n) = BitVec.allOnes n := BitVec.neg_one_eq_allOnes
      rw [ofInt_not,ones,BitVec.xor_allOnes]
    refine ⟨_,[.not .rax],s.setReg .rax (~~~s.regs .rax),rfl,rfl,rfl,⟨rfl,rfl,rfl⟩,⟨wrap_range,?_⟩,?_⟩
    · show (~~~s.regs .rax).setWidth w.bits = _
      rw [BitVec.setWidth_not (Width.narrow word.either).2,leaves.1.low,flipped]
      exact (ofInt_wrap (t := ⟨w.bits,u⟩)).symm
    · intro isEnum
      show ~~~s.regs .rax = _
      rw [leaves.2 isEnum,flipped,wide]

-- The flags of a comparison with zero.
theorem test_run (either : w = .long ∨ w = .quad) (holds : Holds w u .rax z s) :
    ∃ f : Flags, (Instr.cmp w (.imm 0) rax).exec E s = .ok {s with flags := some f} ∧ f.zf = (z == 0) := by
  refine ⟨_,rfl,?_⟩
  have zero : (BitVec.ofInt 64 0).setWidth w.bits = (0 : BitVec w.bits) := by
    rcases either with rfl | rfl <;> rfl
  show ((s.regs .rax).setWidth w.bits == (BitVec.ofInt 64 0).setWidth w.bits) = _
  rw [zero,holds.low,Bool.eq_iff_iff,beq_iff_eq,beq_iff_eq]
  exact ofInt_zero_iff (t := ⟨w.bits,u⟩) holds.range

theorem int_word : Word (.int false) .long false := ⟨rfl,.inl rfl,rfl,rfl,rfl,rfl,rfl,rfl,by simp [isEnum]⟩

theorem not_correct (typed : lhs.ty = some tl) (wordL : Word tl w₁ u₁) (one : Correct E defined own code bp lhs) :
    Correct E defined own code bp (.unary .not (some (.int false)) lhs) := by
  refine unary_correct (X86.cmpZero tl ++ ins (.set .e .rax) ++ ins (.extend false .byte .quad rax .rax)) typed wordL
    int_word ?_ one ?_
  · intro k k' asm made
    obtain ⟨t,known,made⟩ := bind_ok made
    rw [typed] at known
    cases known
    exact followed_parts made
  · intro z m m' s settled evaluated leaves
    obtain ⟨f,tested,zf⟩ := test_run (E := E) wordL.either leaves.1
    have ran := set_run (E := E) (s := {s with flags := some f}) (c := .e) rfl
    refine ⟨truth (z == 0),[.cmp w₁ (.imm 0) rax,.set .e .rax,.extend false .byte .quad rax .rax],
      State.setReg .rax ((BitVec.ofInt 32 (truth (z == 0))).setWidth 64) {s with flags := some f},rfl,
      by rw [wordL.tests]; rfl,?_,?_,?_⟩
    · unfold execAll
      rw [tested,← zf]
      exact ran
    · exact ⟨rfl,rfl,rfl⟩
    · exact ⟨(written_value (.inl rfl) truth_range rfl rfl).1,by simp [isEnum]⟩

-- Conversions extend what has 32 bits, an enum apart.
theorem cast_word (wordL : Word tl w₁ u₁) (word : Word ty w u) : X86.cast tl ty =
    if w₁ = .long ∧ isEnum (some tl) = false ∧ (w = .quad ∨ isEnum (some ty) = true) then
      ins (if u₁ then .mov .long rax rax else .extend true .long .quad rax .rax)
    else [] := by
  have left := wordL.operand
  have right := word.operand
  have sign := wordL.unsigned
  have knownL := wordL.known
  have known := word.known
  subst left right sign
  cases tl <;> first | (cases knownL; done) | skip
  all_goals cases ty <;> first | (cases known; done) | skip
  all_goals first
    | rfl
    | (rename_i v; cases v <;> rfl)
    | (rename_i v v'; cases v <;> cases v' <;> rfl)

theorem extend_run (holds : Holds .long u₁ .rax z s) :
    execAll E [if u₁ then .mov .long rax rax else .extend true .long .quad rax .rax] s = .ok (s.setReg .rax (BitVec.ofInt 64 z)) := by
  have low : (s.regs .rax).setWidth 32 = BitVec.ofInt 32 z := holds.low
  cases u₁ with
  | true =>
    show Except.ok (s.setReg .rax (((s.regs .rax).setWidth 32).setWidth 64)) = _
    rw [low]
    exact congrArg (fun v => Except.ok (s.setReg .rax v)) (zeroExtend_of (t := ⟨32,true⟩) rfl holds.range 64)
  | false =>
    show Except.ok (s.setReg .rax (((s.regs .rax).setWidth 32).signExtend 64)) = _
    rw [low]
    exact congrArg (fun v => Except.ok (s.setReg .rax v)) (signExtend_of (t := ⟨32,false⟩) rfl holds.range 64)

theorem cast_correct (typed : lhs.ty = some tl) (wordL : Word tl w₁ u₁) (word : Word ty w u)
    (one : Correct E defined own code bp lhs) : Correct E defined own code bp (.unary .cast (some ty) lhs) := by
  refine unary_correct (X86.cast tl ty) typed wordL word ?_ one ?_
  · intro k k' asm made
    obtain ⟨t,known,made⟩ := bind_ok made
    rw [typed] at known
    cases known
    obtain ⟨t,known,made⟩ := bind_ok made
    cases known
    exact followed_parts made
  · intro z m m' s settled evaluated leaves
    have value : wide (placeOf E bp) (.unary .cast (some ty) lhs) m =
        if isEnum (some tl) = true then wide (placeOf E bp) lhs m else z := by
      rw [wide,typed,evaluated]
      rfl
    rw [cast_word wordL word]
    by_cases extended : w₁ = .long ∧ isEnum (some tl) = false ∧ (w = .quad ∨ isEnum (some ty) = true)
    · rw [if_pos extended]
      obtain ⟨rfl,notEnum,_⟩ := extended
      rw [value.trans (if_neg (by simp [notEnum]))]
      exact ⟨_,[_],_,rfl,rfl,extend_run leaves.1,⟨rfl,rfl,rfl⟩,holds_full word.either rfl,fun _ => rfl⟩
    rw [if_neg extended]
    refine ⟨(IntType.mk w.bits u).wrap z,[],s,rfl,rfl,rfl,⟨rfl,rfl,rfl⟩,?_⟩
    by_cases enumL : isEnum (some tl) = true
    · -- an enum is not extended, what its operators left is taken as it is
      have full := leaves.2 enumL
      rw [value.trans (if_pos enumL)]
      obtain ⟨rfl,rfl⟩ := wordL.enum enumL
      rcases word.either with rfl | rfl
      · refine ⟨⟨wrap_range,?_⟩,fun _ => full⟩
        rw [leaves.1.low]
        exact (ofInt_wrap (t := ⟨32,u⟩)).symm
      · have same := settled.2 rfl (by rw [typed]; exact enumL) (by simp [isEight,known_type word,Width.bits,Width.bytes]) z m' evaluated
        have equal : BitVec.ofInt 64 (wide (placeOf E bp) lhs m) = BitVec.ofInt 64 z := ofInt_congruent.mpr same
        exact ⟨holds_full (.inr rfl) (full.trans equal),fun _ => full⟩
    · rw [value.trans (if_neg enumL)]
      rcases wordL.either with rfl | rfl
      · have narrow : w = .long ∧ isEnum (some ty) = false := by
          rcases word.either with rfl | rfl
          · exact ⟨rfl,by simpa [enumL] using extended⟩
          · exact absurd ⟨rfl,by simpa using enumL,.inl rfl⟩ extended
        obtain ⟨rfl,notEnum⟩ := narrow
        refine ⟨⟨wrap_range,?_⟩,by simp [notEnum]⟩
        rw [leaves.1.low]
        exact (ofInt_wrap (t := ⟨32,u⟩)).symm
      · have full : s.regs .rax = BitVec.ofInt 64 z := (BitVec.setWidth_eq _).symm.trans leaves.1.low
        exact ⟨holds_full word.either full,fun _ => full⟩

theorem genBinary_integer {kind : BinaryKind} {lcode rcode : Printed} {k : Nat} (wordL : Word tl w₁ u₁) :
    genBinary kind (some ty) (some tl) lcode rcode k = (do
      let (r,k) ← rcode k
      let (l,k) ← lcode k
      return (r ++ push ++ l ++ pop .rdi ++ (← intBinary kind ty tl),k)) := by
  have known := wordL.known
  cases tl <;> first | rfl | cases known

theorem genBinary_parts {kind : BinaryKind} {lcode rcode : Printed} {asm : Asm} {k k' : Nat} (wordL : Word tl w₁ u₁)
    (made : genBinary kind (some ty) (some tl) lcode rcode k = .ok (asm,k')) :
    ∃ r l last next, rcode k = .ok (r,next) ∧ lcode next = .ok (l,k') ∧ intBinary kind ty tl = .ok last ∧
      asm = r ++ (push ++ (l ++ (pop .rdi ++ last))) := by
  rw [genBinary_integer wordL] at made
  obtain ⟨⟨r,next⟩,first,made⟩ := bind_ok made
  obtain ⟨⟨l,rest⟩,second,made⟩ := bind_ok made
  obtain ⟨last,third,made⟩ := bind_ok made
  cases made
  exact ⟨r,l,last,next,first,second,third,by simp only [List.append_assoc]⟩

def Plain (kind : BinaryKind) : Prop := kind.rule = .arithmetic ∨ kind.rule = .comparison ∨ kind.rule = .shift

theorem at_ins {i : Instr} {rest : Asm} (here : At code pc (ins i ++ rest)) :
    code[pc]? = some (.instr i) ∧ At code (pc + 1) rest := at_line here

section
variable {kind : BinaryKind}

theorem generate_plain (plain : Plain kind) : (generate defined (.binary kind (some ty) lhs rhs)).value =
    genBinary kind (some ty) lhs.ty (generate defined lhs).value (generate defined rhs).value := by
  cases kind <;> simp [Plain,BinaryKind.rule] at plain <;> rfl

theorem ceval64_plain (plain : Plain kind) (word : Word ty w u) : ceval64 place (.binary kind (some ty) lhs rhs) m =
    (ceval64 place rhs m >>= fun q => ceval64 place lhs q.2 >>= fun p =>
      arithmetic (kind == .mod) ⟨w.bits,u⟩ kind p.1 q.1 >>= fun z => .ok (z,p.2)) := by
  cases kind <;> simp [Plain,BinaryKind.rule] at plain <;> (rw [ceval64,known_type word] <;> first | rfl | simp)

theorem wide_plain (plain : Plain kind) : wide place (.binary kind (some ty) lhs rhs) m =
    valueOf (ceval64 place (.binary kind (some ty) lhs rhs) m) % 2 ^ 32 := by
  cases kind <;> simp [Plain,BinaryKind.rule] at plain <;> rfl

theorem pushes_plain (plain : Plain kind) :
    pushes (.binary kind (some ty) lhs rhs) = max (pushes rhs) (pushes lhs + 1) := by
  cases kind <;> simp [Plain,BinaryKind.rule] at plain <;> rfl

theorem settled_plain (plain : Plain kind) (settled : Settled place (.binary kind (some ty) lhs rhs) m) :
    Settled place rhs m ∧ ∀ b m', ceval64 place rhs m = .ok (b,m') → Settled place lhs m' := by
  cases kind <;> simp [Plain,BinaryKind.rule] at plain <;> exact settled

-- The right operand waits on the stack for the left one; `last` is the operator's own code.
theorem plain_correct {tr : Ty} {w₂ : Width} {u₂ : Bool} (plain : Plain kind) (left : lhs.ty = some tl) (wordL : Word tl w₁ u₁)
    (right : rhs.ty = some tr) (wordR : Word tr w₂ u₂) (word : Word ty w u)
    (one : Correct E defined own code bp lhs) (two : Correct E defined own code bp rhs)
    (operator : ∀ last, intBinary kind ty tl = .ok last → ∀ a b depth pc s m, At code pc last → Ready own bp depth s m →
      Holds w₁ u₁ .rax a s → Holds w₂ u₂ .rdi b s → Ends E own depth code pc (pc + last.length) s (Written w u)
        (arithmetic (kind == .mod) ⟨w.bits,u⟩ kind a b >>= fun z => .ok (z,m))) :
    Correct E defined own code bp (.binary kind (some ty) lhs rhs) := by
  intro ty' w' u' k k' asm pc depth s m type word' made here deep ready stored settled
  cases type
  obtain ⟨rfl,rfl⟩ := word.unique word'
  rw [generate_plain plain,left] at made
  obtain ⟨r,l,last,next,madeR,madeL,chosen,rfl⟩ := genBinary_parts wordL made
  rw [pushes_plain plain] at deep
  obtain ⟨settledR,settledL⟩ := settled_plain plain settled
  obtain ⟨hereR,here⟩ := at_append.mp here
  obtain ⟨herePush,here⟩ := at_ins here
  obtain ⟨hereL,here⟩ := at_append.mp here
  obtain ⟨herePop,hereLast⟩ := at_ins here
  obtain ⟨more,rfl⟩ : ∃ more, depth = more + 1 := ⟨depth - 1,by omega⟩
  have length : pc + (r ++ (push ++ (l ++ (pop .rdi ++ last)))).length = pc + r.length + 1 + l.length + 1 + last.length := by
    simp only [List.length_append,push,pop,ins,List.length_singleton]
    omega
  rw [length]
  have whole : Ends E own (more + 1) code pc (pc + r.length + 1 + l.length + 1 + last.length) s (Written w u)
      (ceval64 (placeOf E bp) (.binary kind (some ty) lhs rhs) m) := by
    rw [ceval64_plain plain word]
    refine ends_bind ready (two tr w₂ u₂ k next r pc _ s m right wordR madeR hereR (by omega) ready stored.2 settledR)
      fun b m' s' evaluated leavesR ready' => ?_
    refine ends_bind ready' (ends_pushed ready' herePush herePop fun start =>
      one tl w₁ u₁ next k' l _ more _ m' left wordL madeL hereL (by omega) start stored.1 (settledL b m' evaluated))
      fun a m'' s'' _ both ready'' => ?_
    obtain ⟨middle,leavesL,rax,rdi⟩ := both
    refine operator last chosen a b _ _ s'' m'' hereLast ready'' ⟨leavesL.1.range,?_⟩ ⟨leavesR.1.range,?_⟩
    · rw [rax]
      exact leavesL.1.low
    · rw [rdi]
      exact leavesR.1.low
  refine ends_weaken whole fun z m' s' evaluated written => ⟨written.1,fun isEnum => ?_⟩
  obtain ⟨rfl,rfl⟩ := word.enum isEnum
  rw [wide_plain plain,evaluated]
  exact written.2

theorem alu_correct {tr : Ty} {o : Alu} (chosen : aluOf kind = some o) (left : lhs.ty = some tl) (wordL : Word tl w u₁)
    {u₂ : Bool} (right : rhs.ty = some tr) (wordR : Word tr w u₂) (word : Word ty w u)
    (one : Correct E defined own code bp lhs) (two : Correct E defined own code bp rhs) :
    Correct E defined own code bp (.binary kind (some ty) lhs rhs) := by
  have plain : Plain kind := by cases kind <;> cases chosen <;> exact .inl rfl
  refine plain_correct plain left wordL right wordR word one two ?_
  intro last made a b depth pc s m here ready holdsL holdsR
  have operator : intBinary kind ty tl = .ok (ins (.alu o w rdi rax)) := by
    rw [← wordL.operand]
    cases kind <;> cases chosen <;> rfl
  rw [operator] at made
  cases made
  exact alu_ends chosen word.either here ready holdsL holdsR

theorem div_correct (left : lhs.ty = some ty) (right : rhs.ty = some ty) (word : Word ty w u)
    (one : Correct E defined own code bp lhs) (two : Correct E defined own code bp rhs) :
    Correct E defined own code bp (.binary .div (some ty) lhs rhs) := by
  refine plain_correct (.inl rfl) left word right word word one two ?_
  intro last made a b depth pc s m here ready holdsL holdsR
  have operator : intBinary .div ty ty = .ok ([prelude u w,.div (!u) w .rdi].map .instr) := by
    show Except.ok (division ty.isUnsigned (ty.size lp64 == 8) (wordOf ty)) = _
    rw [word.unsigned,word.operand,division_block word]
  rw [operator] at made
  cases made
  exact div_ends word.either here ready holdsL holdsR

theorem mod_correct (left : lhs.ty = some ty) (right : rhs.ty = some ty) (word : Word ty w u)
    (one : Correct E defined own code bp lhs) (two : Correct E defined own code bp rhs) :
    Correct E defined own code bp (.binary .mod (some ty) lhs rhs) := by
  refine plain_correct (.inl rfl) left word right word word one two ?_
  intro last made a b depth pc s m here ready holdsL holdsR
  have operator : intBinary .mod ty ty =
      .ok (([prelude u w,.div (!u) w .rdi] ++ [Instr.mov .quad rdx rax]).map .instr) := by
    show Except.ok (division ty.isUnsigned (ty.size lp64 == 8) (wordOf ty) ++ _) = _
    rw [word.unsigned,word.operand,division_block word]
    rfl
  rw [operator] at made
  cases made
  exact mod_ends word.either here ready holdsL holdsR

theorem shift_correct {tr : Ty} {w₂ : Width} {u₂ : Bool} (plain : kind.rule = .shift) (left : lhs.ty = some ty)
    (right : rhs.ty = some tr) (wordR : Word tr w₂ u₂) (word : Word ty w u) (one : Correct E defined own code bp lhs)
    (two : Correct E defined own code bp rhs) : Correct E defined own code bp (.binary kind (some ty) lhs rhs) := by
  refine plain_correct (.inr (.inr plain)) left word right wordR word one two ?_
  intro last made a b depth pc s m here ready holdsL holdsR
  obtain ⟨o,chosen,operator⟩ : ∃ o, shiftOf u kind = some o ∧
      intBinary kind ty ty = .ok (ins (.mov .quad rdi (.reg .rcx)) ++ ins (.shift o w .rax)) := by
    rw [← word.operand,← word.unsigned]
    cases kind <;> simp [BinaryKind.rule] at plain <;> exact ⟨_,rfl,rfl⟩
  rw [operator] at made
  cases made
  exact shift_ends chosen word.either wordR.either here ready holdsL holdsR

theorem comparison_correct (plain : kind.rule = .comparison) (left : lhs.ty = some tl) (right : rhs.ty = some tl)
    (wordL : Word tl w₁ u₁) (one : Correct E defined own code bp lhs) (two : Correct E defined own code bp rhs) :
    Correct E defined own code bp (.binary kind (some (.int false)) lhs rhs) := by
  refine plain_correct (.inr (.inl plain)) left wordL right wordL int_word one two ?_
  intro last made a b depth pc s m here ready holdsL holdsR
  obtain ⟨o,chosen,operator⟩ : ∃ o, intCompare kind u₁ = some o ∧ intBinary kind (.int false) tl =
      .ok (ins (.cmp w₁ rdi rax) ++ ins (.set (comparison u₁ kind) .rax) ++ ins (.extend false .byte .quad rax .rax)) := by
    rw [← wordL.operand,← wordL.unsigned]
    cases kind <;> simp [BinaryKind.rule] at plain <;> exact ⟨_,rfl,rfl⟩
  rw [operator] at made
  cases made
  exact compare_ends chosen wordL.either here ready holdsL holdsR

-- What add_type leaves of an arithmetic operator, a subtraction of pointers included.
theorem arithmetic_correct (plain : kind.rule = .arithmetic) (left : lhs.ty = some tl) (wordL : Word tl w₁ u₁) {tr : Ty}
    {w₂ : Width} {u₂ : Bool} (right : rhs.ty = some tr) (wordR : Word tr w₂ u₂) (word : Word ty w u)
    (typed : kind = .sub ∨ lhs.ty = some ty ∧ rhs.ty = some ty)
    (subs : kind = .sub → lhs.ty = some ty ∧ rhs.ty = some ty ∨ isEight lhs.ty ∧ isEight rhs.ty ∧ isEight (some ty))
    (one : Correct E defined own code bp lhs) (two : Correct E defined own code bp rhs) :
    Correct E defined own code bp (.binary kind (some ty) lhs rhs) := by
  have quad : ∀ {t : Ty} {w : Width} {u : Bool}, Word t w u → isEight (some t) = true → w = .quad := by
    intro t w u word eight
    rcases word.either with rfl | rfl
    · simp [isEight,X86.known_type word,Width.bits,Width.bytes] at eight
    · rfl
  by_cases same : lhs.ty = some ty ∧ rhs.ty = some ty
  · obtain ⟨sameL,sameR⟩ := same
    cases kind <;> simp [BinaryKind.rule] at plain
    case div => exact div_correct sameL sameR word one two
    case mod => exact mod_correct sameL sameR word one two
    all_goals exact alu_correct rfl sameL word sameR word word one two
  · obtain rfl : kind = .sub := typed.resolve_right same
    obtain ⟨eightL,eightR,eight⟩ := (subs rfl).resolve_left same
    rw [left] at eightL
    rw [right] at eightR
    obtain rfl := quad wordL eightL
    obtain rfl := quad wordR eightR
    obtain rfl := quad word eight
    exact alu_correct rfl left wordL right wordR word one two

end

theorem comma_correct (left : lhs.ty = some tl) (wordL : Word tl w₁ u₁) (right : rhs.ty = some ty)
    (one : Correct E defined own code bp lhs) (two : Correct E defined own code bp rhs) :
    Correct E defined own code bp (.binary .comma (some ty) lhs rhs) := by
  intro ty' w u k k' asm pc depth s m type word made here deep ready stored settled
  cases type
  obtain ⟨⟨a,next⟩,madeL,made⟩ := bind_ok made
  obtain ⟨⟨b,last⟩,madeR,made⟩ := bind_ok made
  cases made
  obtain ⟨hereL,hereR⟩ := at_append.mp here
  have deep : max (pushes lhs) (pushes rhs) ≤ depth := deep
  rw [List.length_append,← Nat.add_assoc]
  refine ends_bind ready (one tl w₁ u₁ k next a pc depth s m left wordL madeL hereL (by omega) ready stored.1 settled.1)
    fun z m' s' evaluated _ ready' => ?_
  have second := two ty w u next k' b _ depth s' m' right word madeR hereR (by omega) ready' stored.2 (settled.2 z m' evaluated)
  have value : wide (placeOf E bp) (.binary .comma (some ty) lhs rhs) m = wide (placeOf E bp) rhs m' := by
    rw [wide,evaluated]
    rfl
  rw [value]
  exact second

theorem store_ends {a : U64} (either : w = .long ∨ w = .quad) (here : code[pc]? = some (.instr (.mov w rax (.mem 0 .rdi))))
    (ready : Ready own bp depth s m) (holds : Holds w u .rax z s) (pointer : s.regs .rdi = a)
    (apart : ∀ x, (x - a).toNat < w.bits / 8 → ¬own x) :
    Ends E own depth code pc (pc + 1) s (fun y s' => y = z ∧ s'.regs = s.regs)
      (.ok (z,writeWord ⟨w.bits,u⟩ m a z)) := by
  have size : w.bytes = w.bits / 8 := by rcases either with rfl | rfl <;> rfl
  have target : s.regs .rdi + BitVec.ofInt 64 0 = a := by simp [pointer]
  have bytes : ∀ m : Memory, writeMem w.bytes m a (s.regs .rax).toNat =
      writeMem (w.bits / 8) m a (BitVec.ofInt w.bits z).toNat := by
    intro m
    rw [← holds.low,BitVec.toNat_setWidth,← size,← writeMem_mod (s.regs .rax).toNat,pow_bytes]
    rfl
  have ran : (Instr.mov w rax (.mem 0 .rdi)).exec E s =
      .ok {s with memory := writeMem (w.bits / 8) s.memory a (BitVec.ofInt w.bits z).toNat} := by
    show Except.ok {s with memory := writeMem w.bytes s.memory (s.regs .rdi + BitVec.ofInt 64 0) (s.regs .rax).toNat} = _
    rw [target,bytes]
  refine ⟨_,reaches_instr here ran,⟨rfl,rfl⟩,fun x outside => writeMem_congr (ready.agrees x outside),rfl,rfl,?_⟩
  intro x inside _
  refine writeMem_outside ?_
  by_contra short
  exact apart x (by omega) inside

theorem assign_correct {v : Obj} (vla : v.ty = ty) (right : rhs.ty = some ty) (two : Correct E defined own code bp rhs) :
    Correct E defined own code bp (.binary .assign (some ty) (.var (some ty) v) rhs) := by
  intro ty' w u k k' asm pc depth s m type word made here deep ready stored settled
  cases type
  obtain ⟨t,known,made⟩ := bind_ok made
  cases known
  obtain ⟨⟨a,next⟩,addressed,made⟩ := bind_ok made
  cases addressed
  obtain ⟨⟨b,last⟩,madeR,made⟩ := bind_ok made
  cases made
  obtain ⟨address,same,runs⟩ := varAddr_run (E := E) defined bp word vla
  rw [same,word.stores] at here ⊢
  simp only [List.append_assoc] at here ⊢
  obtain ⟨hereA,here⟩ := at_append.mp here
  obtain ⟨herePush,here⟩ := at_ins here
  obtain ⟨hereR,here⟩ := at_append.mp here
  obtain ⟨herePop,here⟩ := at_ins here
  obtain ⟨hereStore,_⟩ := at_line here
  obtain ⟨s',ran,still,rax⟩ := runs s ready.frame
  have deep : pushes rhs + 1 ≤ depth := deep
  obtain ⟨more,rfl⟩ : ∃ more, depth = more + 1 := ⟨depth - 1,by omega⟩
  have apart := stored.1 _ (known_type word)
  have value : ceval64 (placeOf E bp) (.binary .assign (some ty) (.var (some ty) v) rhs) m =
      (ceval64 (placeOf E bp) rhs m >>= fun p =>
        .ok (p.1,writeWord ⟨w.bits,u⟩ p.2 (placeOf E bp v) p.1)) := by
    simp only [ceval64,known_type word]
    rfl
  have wideValue : wide (placeOf E bp) (.binary .assign (some ty) (.var (some ty) v) rhs) m = wide (placeOf E bp) rhs m := rfl
  have ready' : Ready own bp (more + 1) s' m :=
    ready.next (fun x outside => by rw [still.memory]; exact ready.agrees x outside) still.kept
  have length : pc + (address.map Line.instr ++ (push ++ (b ++ (pop .rdi ++ ins (.mov w Cc.X86.rax (.mem 0 .rdi)))))).length =
      pc + (address.map Line.instr).length + 1 + b.length + 1 + 1 := by
    simp only [List.length_append,push,pop,ins,List.length_singleton]
    omega
  rw [value,wideValue,length]
  have first := reaches_all _ hereA ran
  rw [← List.length_map (f := Line.instr)] at first
  refine ends_after first still.kept (ends_bind ready' (ends_pushed ready' herePush herePop fun start =>
    two ty w u k k' b _ more _ m right word madeR hereR (by omega) start stored.2 settled)
    fun z m' s'' _ both ready'' => ?_)
  obtain ⟨middle,leaves,same,pointer⟩ := both
  have holds : Holds w u .rax z s'' := ⟨leaves.1.range,by rw [same]; exact leaves.1.low⟩
  refine ends_weaken (store_ends word.either hereStore ready'' holds (pointer.trans rax) apart) fun y m'' last _ kept => ?_
  obtain ⟨rfl,regs⟩ := kept
  refine ⟨⟨holds.range,by rw [regs]; exact holds.low⟩,fun isEnum => ?_⟩
  rw [regs,same]
  exact leaves.2 isEnum

-- A condition computed and compared with zero.
theorem ends_tested {r : CResult (Int × Memory)} {mid : Nat} {y : Int} (word : Word ty w u)
    (ends : Ends E own depth code pc mid s (Leaves w u ty y) r) (here : At code mid (X86.cmpZero ty)) :
    Ends E own depth code pc (mid + 1) s (fun z s' => ∃ f, s'.flags = some f ∧ f.zf = (z == 0)) r := by
  refine ends_then ends fun z s' leaves => ?_
  obtain ⟨f,ran,zf⟩ := test_run (E := E) word.either leaves.1
  rw [word.tests] at here
  exact ⟨_,reaches_instr (at_line here).1 ran,⟨f,rfl,zf⟩,⟨rfl,rfl,rfl⟩⟩

theorem at_tests {rest : Asm} (word : Word ty w u) (here : At code pc (X86.cmpZero ty ++ rest)) :
    At code pc (X86.cmpZero ty) ∧ At code (pc + 1) rest := by
  have both := at_append.mp here
  rw [word.tests] at both ⊢
  exact both

theorem cond_correct {test yes no : Node} {tc : Ty} {w₀ : Width} {u₀ : Bool} (distinct : Distinct code)
    (condition : test.ty = some tc) (wordC : Word tc w₀ u₀) (first : yes.ty = some ty) (second : no.ty = some ty)
    (one : Correct E defined own code bp test) (two : Correct E defined own code bp yes)
    (three : Correct E defined own code bp no) : Correct E defined own code bp (.cond (some ty) test yes no) := by
  intro ty' w u k k' asm pc depth s m type word made here deep ready stored settled
  cases type
  have deep : max (pushes test) (max (pushes yes) (pushes no)) ≤ depth := deep
  obtain ⟨⟨t,next⟩,madeT,made⟩ := bind_ok made
  obtain ⟨known,same,made⟩ := bind_ok made
  rw [condition] at same
  cases same
  obtain ⟨⟨y,later⟩,madeY,made⟩ := bind_ok made
  obtain ⟨⟨n,last⟩,madeN,made⟩ := bind_ok made
  cases made
  simp only [List.append_assoc,List.cons_append,List.nil_append] at here
  obtain ⟨hereT,here⟩ := at_append.mp here
  obtain ⟨hereTest,here⟩ := at_tests wordC here
  obtain ⟨hereJump,here⟩ := at_line here
  obtain ⟨hereY,here⟩ := at_append.mp here
  obtain ⟨hereSkip,here⟩ := at_line here
  obtain ⟨hereElse,here⟩ := at_line here
  obtain ⟨hereN,here⟩ := at_append.mp here
  obtain ⟨hereEnd,_⟩ := at_line here
  have value : ceval64 (placeOf E bp) (.cond (some ty) test yes no) m = (ceval64 (placeOf E bp) test m >>= fun p =>
      if p.1 ≠ 0 then ceval64 (placeOf E bp) yes p.2 else ceval64 (placeOf E bp) no p.2) := by
    rw [ceval64]
  have length : pc + (t ++ X86.cmpZero tc ++ [Line.jcc .e ⟨"else",k⟩] ++ y ++ [Line.jmp ⟨"end",k⟩,.label ⟨"else",k⟩] ++ n ++
      [Line.label ⟨"end",k⟩]).length = pc + t.length + 1 + 1 + y.length + 1 + 1 + n.length + 1 := by
    simp only [List.length_append,List.length_cons,List.length_nil,wordC.tests,ins]
    omega
  rw [value,length]
  refine ends_bind ready (ends_tested wordC (one tc w₀ u₀ (k + 1) next t pc depth s m condition wordC madeT hereT (by omega)
    ready stored.1 settled.1) hereTest) fun z m' s' evaluated tested ready' => ?_
  obtain ⟨f,flags,zf⟩ := tested
  have chosen := settled.2 z m' evaluated
  have wideValue : wide (placeOf E bp) (.cond (some ty) test yes no) m =
      if z ≠ 0 then wide (placeOf E bp) yes m' else wide (placeOf E bp) no m' := by
    rw [wide,evaluated]
    rfl
  rw [wideValue]
  by_cases zero : z = 0
  · simp only [zero,ne_eq,not_true_eq_false,if_false] at chosen ⊢
    refine ends_after (reaches_taken distinct hereJump hereElse flags (zf.trans (by simp [zero])))
      ⟨rfl,rfl,fun _ _ _ => rfl⟩ ?_
    refine ends_then (three ty w u later k' n _ depth s' m' second word madeN hereN (by omega) ready' stored.2.2 chosen)
      fun z s'' leaves => ⟨s'',reaches_label hereEnd,leaves,⟨rfl,rfl,rfl⟩⟩
  · simp only [ne_eq,zero,not_false_eq_true,if_true] at chosen ⊢
    refine ends_after (reaches_passed hereJump flags (zf.trans (by simp [zero]))) ⟨rfl,rfl,fun _ _ _ => rfl⟩ ?_
    refine ends_then (two ty w u next later y _ depth s' m' first word madeY hereY (by omega) ready' stored.2.1 chosen)
      fun z s'' leaves => ⟨s'',reaches_jmp distinct hereSkip hereEnd,leaves,⟨rfl,rfl,rfl⟩⟩

section
variable {stem : String} {stay other : Int}

def IsTruth (z : Int) : Prop := z = 0 ∨ z = 1

theorem truth_leaves (small : IsTruth z) (full : s.regs .rax = BitVec.ofInt 64 z) : Leaves .long false (.int false) x z s := by
  refine ⟨⟨?_,?_⟩,by simp [isEnum]⟩
  · rcases small with rfl | rfl <;> decide
  · rw [full]
    rcases small with rfl | rfl <;> rfl

-- && and ||: an operand may settle the result, which is then `other`.
theorem logical_ends (leave : Condition) (leaving : Int → Bool) {tr : Ty} {w₂ : Width} {u₂ : Bool} {k k' : Nat} {asm : Asm} (distinct : Distinct code)
    (decides : ∀ (f : Flags) z, f.zf = (z == 0) → leave.holds f = leaving z) (smallS : IsTruth stay) (smallO : IsTruth other)
    (left : lhs.ty = some tl) (wordL : Word tl w₁ u₁) (right : rhs.ty = some tr) (wordR : Word tr w₂ u₂)
    (one : Correct E defined own code bp lhs) (two : Correct E defined own code bp rhs)
    (made : genLogical leave stem stay other (some tl) (some tr) (generate defined lhs).value (generate defined rhs).value k =
      .ok (asm,k')) (here : At code pc asm) (deep : max (pushes lhs) (pushes rhs) ≤ depth) (ready : Ready own bp depth s m)
    (storedL : Stored own (placeOf E bp) lhs) (storedR : Stored own (placeOf E bp) rhs)
    (settledL : Settled (placeOf E bp) lhs m)
    (settledR : ∀ z m', ceval64 (placeOf E bp) lhs m = .ok (z,m') → leaving z = false → Settled (placeOf E bp) rhs m') :
    Ends E own depth code pc (pc + asm.length) s (Leaves .long false (.int false) x) (ceval64 (placeOf E bp) lhs m >>= fun p =>
      if leaving p.1 then .ok (other,p.2) else ceval64 (placeOf E bp) rhs p.2 >>= fun q =>
        .ok (if leaving q.1 then other else stay,q.2)) := by
  obtain ⟨⟨l,next⟩,madeL,made⟩ := bind_ok made
  obtain ⟨known,same,made⟩ := bind_ok made
  cases same
  obtain ⟨⟨r,last⟩,madeR,made⟩ := bind_ok made
  obtain ⟨known,same,made⟩ := bind_ok made
  cases same
  cases made
  simp only [List.append_assoc,List.cons_append,List.nil_append] at here
  obtain ⟨hereL,here⟩ := at_append.mp here
  obtain ⟨hereTestL,here⟩ := at_tests wordL here
  obtain ⟨hereJumpL,here⟩ := at_line here
  obtain ⟨hereR,here⟩ := at_append.mp here
  obtain ⟨hereTestR,here⟩ := at_tests wordR here
  obtain ⟨hereJumpR,here⟩ := at_line here
  obtain ⟨hereStay,here⟩ := at_ins here
  obtain ⟨hereSkip,here⟩ := at_line here
  obtain ⟨hereStem,here⟩ := at_line here
  obtain ⟨hereOther,here⟩ := at_ins here
  obtain ⟨hereEnd,_⟩ := at_line here
  have length : pc + (l ++ X86.cmpZero tl ++ [Line.jcc leave ⟨stem,k⟩] ++ r ++ X86.cmpZero tr ++ [Line.jcc leave ⟨stem,k⟩] ++
      ins (.mov .quad (.imm stay) rax) ++ [Line.jmp ⟨"end",k⟩,.label ⟨stem,k⟩] ++ ins (.mov .quad (.imm other) rax) ++
      [Line.label ⟨"end",k⟩]).length = pc + l.length + 1 + 1 + r.length + 1 + 1 + 1 + 1 + 1 + 1 + 1 := by
    simp only [List.length_append,List.length_cons,List.length_nil,wordL.tests,wordR.tests,ins]
    omega
  -- from a jump to the label on, and from the last test that did not jump
  have settles : ∀ (s' : State) m', Ready own bp depth s' m' → Ends E own depth code
      (pc + l.length + 1 + 1 + r.length + 1 + 1 + 1 + 1 + 1) (pc + l.length + 1 + 1 + r.length + 1 + 1 + 1 + 1 + 1 + 1 + 1) s'
      (Leaves .long false (.int false) x) (.ok (other,m')) := by
    intro s' m' ready'
    exact ends_done ((reaches_instr hereOther rfl).trans (reaches_label hereEnd)) (truth_leaves smallO rfl) ⟨rfl,rfl,rfl⟩ ready'
  have stays : ∀ (s' : State) m', Ready own bp depth s' m' → Ends E own depth code
      (pc + l.length + 1 + 1 + r.length + 1 + 1) (pc + l.length + 1 + 1 + r.length + 1 + 1 + 1 + 1 + 1 + 1 + 1) s'
      (Leaves .long false (.int false) x) (.ok (stay,m')) := by
    intro s' m' ready'
    exact ends_done ((reaches_instr hereStay rfl).trans (reaches_jmp distinct hereSkip hereEnd)) (truth_leaves smallS rfl)
      ⟨rfl,rfl,rfl⟩ ready'
  rw [length]
  refine ends_bind ready (ends_tested wordL (one tl w₁ u₁ (k + 1) next l pc depth s m left wordL madeL hereL (by omega)
    ready storedL settledL) hereTestL) fun z m' s' evaluated tested ready' => ?_
  obtain ⟨f,flags,zf⟩ := tested
  cases leaves : leaving z with
  | true =>
    simp only [if_true]
    exact ends_after (reaches_taken distinct hereJumpL hereStem flags ((decides f z zf).trans leaves)) ⟨rfl,rfl,fun _ _ _ => rfl⟩
      (settles s' m' ready')
  | false =>
    simp only [Bool.false_eq_true,if_false]
    refine ends_after (reaches_passed hereJumpL flags ((decides f z zf).trans leaves)) ⟨rfl,rfl,fun _ _ _ => rfl⟩ ?_
    refine ends_bind ready' (ends_tested wordR (two tr w₂ u₂ next k' r _ depth s' m' right wordR madeR hereR (by omega)
      ready' storedR (settledR z m' evaluated leaves)) hereTestR) fun y m'' s'' evaluated' tested' ready'' => ?_
    obtain ⟨f',flags',zf'⟩ := tested'
    cases leaves' : leaving y with
    | true =>
      simp only [if_true]
      exact ends_after (reaches_taken distinct hereJumpR hereStem flags' ((decides f' y zf').trans leaves'))
        ⟨rfl,rfl,fun _ _ _ => rfl⟩ (settles s'' m'' ready'')
    | false =>
      simp only [Bool.false_eq_true,if_false]
      exact ends_after (reaches_passed hereJumpR flags' ((decides f' y zf').trans leaves')) ⟨rfl,rfl,fun _ _ _ => rfl⟩
        (stays s'' m'' ready'')

end

theorem logand_correct {tr : Ty} {w₂ : Width} {u₂ : Bool} (distinct : Distinct code) (left : lhs.ty = some tl)
    (wordL : Word tl w₁ u₁) (right : rhs.ty = some tr) (wordR : Word tr w₂ u₂) (one : Correct E defined own code bp lhs)
    (two : Correct E defined own code bp rhs) :
    Correct E defined own code bp (.binary .logand (some (.int false)) lhs rhs) := by
  intro ty' w u k k' asm pc depth s m type word made here deep ready stored settled
  cases type
  obtain ⟨rfl,rfl⟩ := word.unique int_word
  change genLogical .e "false" 1 0 lhs.ty rhs.ty _ _ k = _ at made
  rw [left,right] at made
  have value : ceval64 (placeOf E bp) (.binary .logand (some (.int false)) lhs rhs) m =
      (ceval64 (placeOf E bp) lhs m >>= fun p => if p.1 == 0 then .ok (0,p.2) else ceval64 (placeOf E bp) rhs p.2 >>= fun q =>
        .ok (if q.1 == 0 then 0 else 1,q.2)) := by
    rw [ceval64]
    congr 1
    funext p
    by_cases zero : p.1 = 0 <;> simp [zero,truth] <;> rfl
  rw [value]
  refine logical_ends .e (fun z => z == 0) distinct (fun f z zf => zf) (.inr rfl) (.inl rfl) left wordL right wordR
    one two made here deep ready stored.1 stored.2 settled.1 fun z m' evaluated stays => ?_
  exact settled.2 z m' evaluated (by simpa using stays)

theorem logor_correct {tr : Ty} {w₂ : Width} {u₂ : Bool} (distinct : Distinct code) (left : lhs.ty = some tl)
    (wordL : Word tl w₁ u₁) (right : rhs.ty = some tr) (wordR : Word tr w₂ u₂) (one : Correct E defined own code bp lhs)
    (two : Correct E defined own code bp rhs) :
    Correct E defined own code bp (.binary .logor (some (.int false)) lhs rhs) := by
  intro ty' w u k k' asm pc depth s m type word made here deep ready stored settled
  cases type
  obtain ⟨rfl,rfl⟩ := word.unique int_word
  change genLogical .ne "true" 0 1 lhs.ty rhs.ty _ _ k = _ at made
  rw [left,right] at made
  have value : ceval64 (placeOf E bp) (.binary .logor (some (.int false)) lhs rhs) m =
      (ceval64 (placeOf E bp) lhs m >>= fun p => if p.1 != 0 then .ok (1,p.2) else ceval64 (placeOf E bp) rhs p.2 >>= fun q =>
        .ok (if q.1 != 0 then 1 else 0,q.2)) := by
    rw [ceval64]
    congr 1
    funext p
    by_cases zero : p.1 = 0 <;> simp [zero,truth] <;> rfl
  rw [value]
  refine logical_ends .ne (fun z => z != 0) distinct (fun f z zf => congrArg not zf) (.inl rfl) (.inr rfl) left wordL
    right wordR one two made here deep ready stored.1 stored.2 settled.1 fun z m' evaluated stays => ?_
  exact settled.2 z m' evaluated (by simpa using stays)

end

end SandboxStack.Cc.X86
