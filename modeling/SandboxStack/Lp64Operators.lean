import SandboxStack.Lp64Words

namespace SandboxStack.Cc.X86
open SandboxStack.X86 LittleEndian IntType

-- The register has the value in its low half or in all of it; of the other half nothing is said.
structure Holds (w : Width) (u : Bool) (r : Reg) (z : Int) (s : State) : Prop where
  range : (IntType.mk w.bits u).InRange z
  low : (s.regs r).setWidth w.bits = BitVec.ofInt w.bits z

section
variable {w : Width} {s : State} {r : Reg}

theorem Width.narrow (either : w = .long ∨ w = .quad) : 0 < w.bits ∧ w.bits ≤ 64 := by
  rcases either with rfl | rfl <;> decide

theorem narrow_back (either : w = .long ∨ w = .quad) (v : BitVec w.bits) : (v.setWidth 64).setWidth w.bits = v :=
  (BitVec.setWidth_setWidth_of_le v (Width.narrow either).2).trans (BitVec.setWidth_eq v)

theorem write_word (either : w = .long ∨ w = .quad) (v : BitVec w.bits) :
    s.write w r (v.setWidth 64) = s.setReg r (v.setWidth 64) := by
  rcases either with rfl | rfl
  · have back := narrow_back (.inl rfl) v
    exact congrArg (fun x : U32 => s.setReg r (x.setWidth 64)) back
  · rfl

-- What 32-bit operations leave in the upper half.
theorem extended_low {z : Int} : (BitVec.ofInt w.bits z).setWidth 64 = BitVec.ofInt 64 (z % 2 ^ w.bits) := by
  apply BitVec.eq_of_toNat_eq
  rw [BitVec.toNat_setWidth,BitVec.toNat_ofInt,BitVec.toNat_ofInt]
  have positive := two_pow_pos w.bits
  have nonneg := Int.emod_nonneg z (Int.ne_of_gt positive)
  push_cast
  generalize z % 2 ^ w.bits = y at nonneg
  omega

end

section
variable {E : Env} {own : U64 → Prop} {bp : U64} {depth : Nat} {code : List Line} {pc : Nat} {s s' : State} {m : Memory}
  {w w₁ w₂ : Width} {u u₁ u₂ : Bool} {a b z : Int} {kind : BinaryKind}

-- A value that an instruction wrote to %rax.
def Written (w : Width) (u : Bool) (z : Int) (s : State) : Prop :=
  Holds w u .rax z s ∧ s.regs .rax = BitVec.ofInt 64 (z % 2 ^ w.bits)

theorem written_value {v : BitVec w.bits} (either : w = .long ∨ w = .quad) (range : (IntType.mk w.bits u).InRange z)
    (value : v = BitVec.ofInt w.bits z) (rax : s.regs .rax = v.setWidth 64) : Written w u z s := by
  refine ⟨⟨range,?_⟩,?_⟩
  · rw [rax,narrow_back either,value]
  · rw [rax,value,extended_low]

theorem ends_written (block : List Instr) {v : BitVec w.bits} {c : CResult Int} (either : w = .long ∨ w = .quad)
    (here : At code pc (block.map .instr)) (ran : execAll E block s = .ok s') (still : Still s s')
    (rax : s'.regs .rax = v.setWidth 64) (agrees : Agrees ⟨w.bits,u⟩ (.ok v) c) (ready : Ready own bp depth s m) :
    Ends E own depth code pc (pc + block.length) s (Written w u) (c >>= fun z => .ok (z,m)) := by
  match c with
  | .ok z =>
    obtain ⟨range,value⟩ := agrees
    cases value
    exact ends_done (reaches_all _ here ran) (written_value either range rfl rax) still ready
  | .error .trap =>
    obtain ⟨e,_,none⟩ := agrees
    cases none
  | .error .undefined => trivial

-- The operators that are one instruction.
def aluOf : BinaryKind → Option Alu
  | .add => some .add
  | .sub => some .sub
  | .mul => some .imul
  | .bitand => some .and
  | .bitor => some .or
  | .bitxor => some .xor
  | _ => none

theorem alu_agrees {o : Alu} {t : IntType} {strict : Bool} (chosen : aluOf kind = some o) :
    Agrees t (.ok (o.eval (BitVec.ofInt t.bits a) (BitVec.ofInt t.bits b))) (arithmetic strict t kind a b) := by
  cases kind <;> cases chosen
  case add => exact agrees_reduce (BitVec.ofInt_add ..).symm
  case sub => exact agrees_reduce (ofInt_sub _).symm
  case mul => exact agrees_reduce (BitVec.ofInt_mul ..).symm
  case bitand => exact agrees_bitwise _
  case bitor => exact agrees_bitwise _
  case bitxor => exact agrees_bitwise _

theorem alu_run (o : Alu) (either : w = .long ∨ w = .quad) :
    execAll E [.alu o w rdi rax] s =
      .ok (s.setReg .rax ((o.eval ((s.regs .rax).setWidth w.bits) ((s.regs .rdi).setWidth w.bits)).setWidth 64)).unflagged := by
  show (do
    let s ← Except.ok (State.unflagged (s.write w .rax _))
    execAll E [] s) = _
  rw [write_word either]
  rfl

theorem alu_ends {o : Alu} (chosen : aluOf kind = some o) (either : w = .long ∨ w = .quad)
    (here : At code pc (ins (.alu o w rdi rax))) (ready : Ready own bp depth s m) {strict : Bool}
    (left : Holds w u₁ .rax a s) (right : Holds w u₂ .rdi b s) :
    Ends E own depth code pc (pc + 1) s (Written w u) (arithmetic strict ⟨w.bits,u⟩ kind a b >>= fun z => .ok (z,m)) := by
  refine ends_written [.alu o w rdi rax] either here (alu_run o either) ⟨rfl,rfl,rfl⟩ rfl ?_ ready
  rw [left.low,right.low]
  exact alu_agrees chosen

def shiftOf (u : Bool) : BinaryKind → Option Shift
  | .shl => some .shl
  | .shr => some (if u then .shr else .sar)
  | _ => none

theorem shift_agrees {o : Shift} {t : IntType} {strict : Bool} (chosen : shiftOf t.unsigned kind = some o)
    (sized : 0 < t.bits) (one : t.InRange a) (inside : ¬(b < 0 ∨ (t.bits : Int) ≤ b)) :
    Agrees t (.ok (o.eval (BitVec.ofInt t.bits a) b.toNat)) (arithmetic strict t kind a b) := by
  cases kind <;> cases chosen
  case shl =>
    have outcome : arithmetic strict t .shl a b = reduce strict t (a * 2 ^ b.toNat) := if_neg inside
    rw [outcome]
    exact agrees_reduce (ofInt_shift _ _).symm
  case shr =>
    have outcome : arithmetic strict t .shr a b = .ok (a / 2 ^ b.toNat) := if_neg inside
    rw [outcome]
    refine ⟨shift_range sized one _,?_⟩
    cases unsigned : t.unsigned with
    | true => exact congrArg Except.ok (ofInt_ushift unsigned one _).symm
    | false => exact congrArg Except.ok (ofInt_sshift unsigned one _).symm

-- The count is the low byte of the right operand, whatever its type.
theorem shift_count (either : w = .long ∨ w = .quad) (either₂ : w₂ = .long ∨ w₂ = .quad) (right : Holds w₂ u₂ .rdi b s)
    (inside : ¬(b < 0 ∨ (w.bits : Int) ≤ b)) :
    ((s.regs .rdi).setWidth 8).toNat % (if w = .quad then 64 else 32) = b.toNat := by
  have cut : (s.regs .rdi).setWidth 8 = BitVec.ofInt 8 b := by
    have low := congrArg (BitVec.setWidth 8) right.low
    rw [truncate_of (by rcases either₂ with rfl | rfl <;> decide)] at low
    rw [← low]
    exact (BitVec.setWidth_setWidth_of_le _ (by rcases either₂ with rfl | rfl <;> decide)).symm
  have bound : w.bits = if w = .quad then 64 else 32 := by rcases either with rfl | rfl <;> rfl
  rw [← bound,cut]
  obtain ⟨n,rfl⟩ := Int.eq_ofNat_of_zero_le (by omega : 0 ≤ b)
  have narrow := (Width.narrow either).2
  rw [BitVec.ofInt_natCast,BitVec.toNat_ofNat,Nat.mod_eq_of_lt (by omega),Nat.mod_eq_of_lt (by omega)]
  rfl

theorem shift_ends {o : Shift} (chosen : shiftOf u kind = some o) (either : w = .long ∨ w = .quad)
    (either₂ : w₂ = .long ∨ w₂ = .quad) (here : At code pc (ins (.mov .quad rdi (.reg .rcx)) ++ ins (.shift o w .rax)))
    (ready : Ready own bp depth s m) {strict : Bool} (left : Holds w u .rax a s) (right : Holds w₂ u₂ .rdi b s) :
    Ends E own depth code pc (pc + 2) s (Written w u) (arithmetic strict ⟨w.bits,u⟩ kind a b >>= fun z => .ok (z,m)) := by
  by_cases outside : b < 0 ∨ (w.bits : Int) ≤ b
  · have outcome : arithmetic strict ⟨w.bits,u⟩ kind a b = .error .undefined := by
      cases kind <;> cases chosen <;> exact if_pos outside
    rw [outcome]
    trivial
  have ran : execAll E [.mov .quad rdi (.reg .rcx),.shift o w .rax] s =
      .ok ((s.setReg .rcx (s.regs .rdi)).setReg .rax ((o.eval ((s.regs .rax).setWidth w.bits) b.toNat).setWidth 64)).unflagged := by
    have count := shift_count either either₂ right outside
    show (do
      let s ← Except.ok (State.unflagged ((s.setReg .rcx (s.regs .rdi)).write w .rax _))
      execAll E [] s) = _
    rw [write_word either]
    show Except.ok (State.unflagged ((s.setReg .rcx (s.regs .rdi)).setReg .rax
      ((o.eval ((s.regs .rax).setWidth w.bits) (((s.regs .rdi).setWidth 8).toNat % _)).setWidth 64))) = _
    rw [count]
  refine ends_written [.mov .quad rdi (.reg .rcx),.shift o w .rax] either here ran ⟨rfl,rfl,rfl⟩ rfl ?_ ready
  rw [left.low]
  exact shift_agrees chosen (Width.narrow either).1 left.range outside

-- What the instruction before a division leaves in %rdx.
def prelude (u : Bool) (w : Width) : Instr := if u then .mov w (.imm 0) rdx else if w = .quad then .cqo else .cdq

theorem prelude_run (either : w = .long ∨ w = .quad) : ∃ s', (prelude u w).exec E s = .ok s' ∧ Still s s' ∧
    s'.regs .rax = s.regs .rax ∧ s'.regs .rdi = s.regs .rdi ∧
    (s'.regs .rdx).setWidth w.bits = extension ⟨w.bits,u⟩ ((s.regs .rax).setWidth w.bits) := by
  cases u with
  | true =>
    rcases either with rfl | rfl <;> exact ⟨_,rfl,⟨rfl,rfl,rfl⟩,rfl,rfl,rfl⟩
  | false =>
    have spread : (prelude false w).exec E s = .ok (signWord w s) := by rcases either with rfl | rfl <;> rfl
    have word : ∃ v : U64, signWord w s = (s.setReg .rdx v).unflagged ∧
        v.setWidth w.bits = extension ⟨w.bits,false⟩ ((s.regs .rax).setWidth w.bits) := by
      unfold signWord extension
      rcases either with rfl | rfl <;> cases ((s.regs .rax).setWidth _).msb <;> exact ⟨_,rfl,rfl⟩
    obtain ⟨v,same,low⟩ := word
    rw [spread,same]
    exact ⟨_,rfl,⟨rfl,rfl,rfl⟩,rfl,rfl,low⟩

theorem div_run (either : w = .long ∨ w = .quad) (left : Holds w u .rax a s) (right : Holds w u .rdi b s) :
    (b = 0 ∨ ¬(IntType.mk w.bits u).InRange (a.tdiv b)) ∧
      execAll E [prelude u w,.div (!u) w .rdi] s = .error .divide ∨
    ¬(b = 0 ∨ ¬(IntType.mk w.bits u).InRange (a.tdiv b)) ∧
      ∃ s', execAll E [prelude u w,.div (!u) w .rdi] s = .ok s' ∧ Still s s' ∧
        s'.regs .rax = (BitVec.ofInt w.bits (a.tdiv b)).setWidth 64 ∧
        s'.regs .rdx = (BitVec.ofInt w.bits (a.tmod b)).setWidth 64 := by
  obtain ⟨s',first,still,rax,rdi,rdx⟩ := prelude_run (E := E) (s := s) (u := u) either
  have division := divided_agrees left.range right.range
  have operands : divided (!u) ((s'.regs .rdx).setWidth w.bits) ((s'.regs .rax).setWidth w.bits)
      ((s'.regs .rdi).setWidth w.bits) = divided (!u) (extension ⟨w.bits,u⟩ (BitVec.ofInt w.bits a))
      (BitVec.ofInt w.bits a) (BitVec.ofInt w.bits b) := by
    rw [rdx,rax,rdi,left.low,right.low]
  have second := operands.trans division
  have chain : execAll E [prelude u w,.div (!u) w .rdi] s = (Instr.div (!u) w .rdi).exec E s' := by
    simp only [execAll,first,bind,Except.bind]
    cases (Instr.div (!u) w .rdi).exec E s' <;> rfl
  rw [chain]
  by_cases stops : b = 0 ∨ ¬(IntType.mk w.bits u).InRange (a.tdiv b)
  · rw [if_pos stops] at second
    refine .inl ⟨stops,?_⟩
    simp only [Instr.exec,second,bind,Except.bind]
  · rw [if_neg stops] at second
    refine .inr ⟨stops,((s'.setReg .rax ((BitVec.ofInt w.bits (a.tdiv b)).setWidth 64)).setReg .rdx
      ((BitVec.ofInt w.bits (a.tmod b)).setWidth 64)).unflagged,?_,?_,rfl,rfl⟩
    · simp only [Instr.exec,second,bind,Except.bind,pure,Except.pure,write_word either]
    · exact ⟨still.memory,still.sp,still.bp⟩

theorem division_block {tl : Ty} (word : Word tl w u₁) :
    division u (tl.size lp64 == 8) w = [prelude u w,.div (!u) w .rdi].map .instr := by
  unfold division prelude
  rw [word.eight]
  rcases word.either with rfl | rfl <;> cases u <;> rfl

theorem div_ends (either : w = .long ∨ w = .quad)
    (here : At code pc ([prelude u w,.div (!u) w .rdi].map .instr)) (ready : Ready own bp depth s m)
    (left : Holds w u .rax a s) (right : Holds w u .rdi b s) :
    Ends E own depth code pc (pc + 2) s (Written w u) (arithmetic false ⟨w.bits,u⟩ .div a b >>= fun z => .ok (z,m)) := by
  rcases div_run (E := E) either left right with ⟨stops,ran⟩ | ⟨goes,s',ran,still,rax,_⟩
  · have outcome : arithmetic false ⟨w.bits,u⟩ .div a b = .error .trap := by
      refine if_pos (stops.imp_right fun outside => ⟨?_,outside⟩)
      cases u with
      | true => exact absurd (truncated_range rfl left.range right.range).1 outside
      | false => rfl
    rw [outcome]
    exact faults_all here ran
  · have outcome : arithmetic false ⟨w.bits,u⟩ .div a b = .ok (a.tdiv b) :=
      if_neg fun stops => goes (stops.imp_right And.right)
    rw [outcome]
    have range : (IntType.mk w.bits u).InRange (a.tdiv b) := not_not.mp fun outside => goes (.inr outside)
    exact ends_done (reaches_all _ here ran) (written_value either range rfl rax) still ready

theorem mod_ends (either : w = .long ∨ w = .quad)
    (here : At code pc (([prelude u w,.div (!u) w .rdi] ++ [Instr.mov .quad rdx rax]).map .instr)) (ready : Ready own bp depth s m)
    (left : Holds w u .rax a s) (right : Holds w u .rdi b s) :
    Ends E own depth code pc (pc + 3) s (Written w u) (arithmetic true ⟨w.bits,u⟩ .mod a b >>= fun z => .ok (z,m)) := by
  rcases div_run (E := E) either left right with ⟨stops,ran⟩ | ⟨goes,s',ran,still,_,rest⟩
  · rcases stops with zero | outside
    · have outcome : arithmetic true ⟨w.bits,u⟩ .mod a b = .error .trap := if_pos zero
      rw [outcome]
      refine faults_all here ?_
      rw [execAll_append,ran]
      rfl
    · cases u with
      | true => exact absurd (truncated_range rfl left.range right.range).1 outside
      | false =>
        by_cases zero : b = 0
        · have outcome : arithmetic true ⟨w.bits,false⟩ .mod a b = .error .trap := if_pos zero
          rw [outcome]
          refine faults_all here ?_
          rw [execAll_append,ran]
          rfl
        · have outcome : arithmetic true ⟨w.bits,false⟩ .mod a b = .error .undefined :=
            (if_neg zero).trans (if_pos ⟨rfl,rfl,outside⟩)
          rw [outcome]
          trivial
  · have zero : ¬b = 0 := fun zero => goes (.inl zero)
    have outcome : arithmetic true ⟨w.bits,u⟩ .mod a b = .ok (a.tmod b) :=
      (if_neg zero).trans (if_neg fun overflow => goes (.inr overflow.2.2))
    have whole : execAll E ([prelude u w,.div (!u) w .rdi] ++ [.mov .quad rdx rax]) s =
        .ok (s'.setReg .rax (s'.regs .rdx)) := by
      rw [execAll_append,ran]
      rfl
    rw [outcome]
    exact ends_done (reaches_all _ here whole) (written_value either (tmod_range left.range right.range) rfl rest)
      ⟨still.memory,still.sp,still.bp⟩ ready

theorem comparison_holds {o : Wasm.IntCompare} {n : Nat} {x y : BitVec n} (chosen : intCompare kind u = some o) (sized : 0 < n) :
    (comparison u kind).holds (compared x y) = o.eval x y := by
  cases kind <;> cases u <;> cases chosen
  all_goals first
    | rfl
    | exact holds_be
    | exact holds_l sized
    | exact holds_le sized

theorem byte_low (v : U64) : ((s.write .byte .rax v).regs .rax).setWidth 8 = v.setWidth 8 := by
  show ((s.regs .rax &&& 0xffffffffffffff00) ||| (v &&& 0xff)).setWidth 8 = _
  have high : BitVec.setWidth 8 (0xffffffffffffff00 : U64) = 0#8 := by decide
  have ones : BitVec.setWidth 8 (0xff : U64) = BitVec.allOnes 8 := by decide
  simp only [BitVec.setWidth_or,BitVec.setWidth_and]
  rw [high,ones,BitVec.and_allOnes,BitVec.and_zero,BitVec.zero_or]

theorem byte_over (v x : U64) : (s.write .byte .rax v).setReg .rax x = s.setReg .rax x := by
  simp only [State.write,State.setReg,Function.update_idem]

-- A condition made a number.
theorem set_run {c : Condition} {f : Flags} (flags : s.flags = some f) :
    execAll E [.set c .rax,.extend false .byte .quad rax .rax] s =
      .ok (s.setReg .rax ((BitVec.ofInt 32 (truth (c.holds f))).setWidth 64)) := by
  have ran : execAll E [.set c .rax,.extend false .byte .quad rax .rax] s =
      .ok ((s.write .byte .rax (if c.holds f then 1 else 0)).setReg .rax
        ((((s.write .byte .rax (if c.holds f then 1 else 0)).regs .rax).setWidth 8).setWidth 64)) := by
    simp only [execAll,Instr.exec,flags,bind,Except.bind]
    rfl
  rw [ran,byte_low,byte_over]
  cases c.holds f <;> rfl

theorem compare_ends {o : Wasm.IntCompare} (chosen : intCompare kind u₁ = some o) (either : w₁ = .long ∨ w₁ = .quad)
    (here : At code pc (ins (.cmp w₁ rdi rax) ++ ins (.set (comparison u₁ kind) .rax) ++
      ins (.extend false .byte .quad rax .rax))) (ready : Ready own bp depth s m) {strict : Bool}
    (left : Holds w₁ u₁ .rax a s) (right : Holds w₁ u₁ .rdi b s) :
    Ends E own depth code pc (pc + 3) s (Written .long false) (arithmetic strict ⟨32,false⟩ kind a b >>= fun z => .ok (z,m)) := by
  have narrow := Width.narrow either
  have value : arithmetic strict ⟨32,false⟩ kind a b = .ok (truth (o.eval (BitVec.ofInt w₁.bits a) (BitVec.ofInt w₁.bits b))) :=
    compare_agrees chosen left.range right.range
  rw [value,← comparison_holds chosen narrow.1,← left.low,← right.low]
  refine ends_done (reaches_all [.cmp w₁ rdi rax,_,_] here
    (set_run (s := {s with flags := some (compared ((s.regs .rax).setWidth w₁.bits) ((s.regs .rdi).setWidth w₁.bits))}) rfl))
    (written_value (.inl rfl) truth_range rfl rfl) ⟨rfl,rfl,rfl⟩ ready

end

end SandboxStack.Cc.X86
