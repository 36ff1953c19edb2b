import SandboxStack.LittleEndian

namespace SandboxStack.X86
open LittleEndian

inductive Reg where
  | rax | rcx | rdx | rdi | rsp | rbp | r8 | r9
  deriving DecidableEq, Repr

inductive Width where
  | byte | word | long | quad
  deriving DecidableEq, Repr

namespace Width

def bytes : Width → Nat
  | .byte => 1
  | .word => 2
  | .long => 4
  | .quad => 8

def bits (w : Width) : Nat := 8 * w.bytes

end Width

-- `symbol` is name(%rip), `tpoff` is $name@tpoff and `thread` is %fs:0.
inductive Operand where
  | imm (v : Int)
  | reg (r : Reg)
  | mem (disp : Int) (base : Reg)
  | symbol (name : String)
  | tpoff (name : String)
  | thread
  deriving DecidableEq, Repr

inductive Alu where
  | add | sub | and | or | xor | imul
  deriving DecidableEq, Repr

inductive Shift where
  | shl | shr | sar
  deriving DecidableEq, Repr

inductive Condition where
  | e | ne | b | be | l | le
  deriving DecidableEq, Repr

-- AT&T order, source first. Shifts count by %cl. `text` is an instruction
-- outside the integer part of the machine.
inductive Instr where
  | mov (w : Width) (src dst : Operand)
  | extend (signed : Bool) (source target : Width) (src : Operand) (dst : Reg)
  | lea (src : Operand) (dst : Reg)
  | alu (o : Alu) (w : Width) (src dst : Operand)
  | cmp (w : Width) (src dst : Operand)
  | neg (r : Reg)
  | not (r : Reg)
  | shift (o : Shift) (w : Width) (r : Reg)
  | push (r : Reg)
  | pop (r : Reg)
  | set (c : Condition) (r : Reg)
  | cdq
  | cqo
  | div (signed : Bool) (w : Width) (r : Reg)
  | text (t : String)
  deriving DecidableEq, Repr

-- A label that the generator makes up: its stem and its number.
structure Label where
  stem : String
  number : Nat
  deriving DecidableEq, Repr

inductive Line where
  | instr (i : Instr)
  | label (l : Label)
  | jmp (l : Label)
  | jcc (c : Condition) (l : Label)
  deriving DecidableEq, Repr

abbrev Memory := U64 → U8

structure Flags where
  zf : Bool
  cf : Bool
  sf : Bool
  of : Bool

-- Where E are, how far into the thread's block, and where that block is.
structure Env where
  symbol : String → U64
  tpoff : String → U64
  thread : U64

-- `flags` is none where an instruction left them to be ignored.
structure State where
  regs : Reg → U64
  flags : Option Flags
  memory : Memory

inductive Fault where
  | divide | stuck
  deriving DecidableEq, Repr

def loadBytes (m : Memory) (a : U64) (n : Nat) : List U8 := (List.range n).map fun i => m (a + BitVec.ofNat 64 i)

def readMem (n : Nat) (m : Memory) (a : U64) : Nat := leValue (loadBytes m a n)

def storeBytes (m : Memory) (a : U64) (bytes : List U8) : Memory := fun x =>
  match bytes[(x - a).toNat]? with
  | some b => b
  | none => m x

def writeMem (n : Nat) (m : Memory) (a : U64) (v : Nat) : Memory := storeBytes m a (leBytes n v)

namespace State

def setReg (r : Reg) (v : U64) (s : State) : State := {s with regs := Function.update s.regs r v}

-- Writing 32 bits clears the upper half; writing fewer keeps the rest.
def write (w : Width) (r : Reg) (v : U64) (s : State) : State :=
  match w with
  | .quad => s.setReg r v
  | .long => s.setReg r ((v.setWidth 32).setWidth 64)
  | .word => s.setReg r ((s.regs r &&& 0xffffffffffff0000) ||| (v &&& 0xffff))
  | .byte => s.setReg r ((s.regs r &&& 0xffffffffffffff00) ||| (v &&& 0xff))

end State

def Condition.holds (c : Condition) (f : Flags) : Bool :=
  match c with
  | .e => f.zf
  | .ne => !f.zf
  | .b => f.cf
  | .be => f.cf || f.zf
  | .l => f.sf != f.of
  | .le => f.zf || f.sf != f.of

-- The flags of a - b.
def compared {n : Nat} (a b : BitVec n) : Flags :=
  ⟨a == b,a.ult b,(a - b).msb,a.ssubOverflow b⟩

def Alu.eval {n : Nat} (o : Alu) (a b : BitVec n) : BitVec n :=
  match o with
  | .add => a + b
  | .sub => a - b
  | .and => a &&& b
  | .or => a ||| b
  | .xor => a ^^^ b
  | .imul => a * b

def Shift.eval {n : Nat} (o : Shift) (a : BitVec n) (count : Nat) : BitVec n :=
  match o with
  | .shl => a <<< count
  | .shr => a >>> count
  | .sar => a.sshiftRight count

-- The quotient and remainder of a double word, when the quotient fits a word.
def divided {n : Nat} (signed : Bool) (hi lo d : BitVec n) : Except Fault (BitVec n × BitVec n) :=
  if d = 0 then .error .divide
  else if signed then
    let q := (hi ++ lo).toInt.tdiv d.toInt
    if (BitVec.ofInt n q).toInt = q then .ok (BitVec.ofInt n q,BitVec.ofInt n ((hi ++ lo).toInt.tmod d.toInt))
    else .error .divide
  else
    let q := (hi ++ lo).toNat / d.toNat
    if q < 2 ^ n then .ok (BitVec.ofNat n q,BitVec.ofNat n ((hi ++ lo).toNat % d.toNat)) else .error .divide

section
variable (E : Env)

def address (s : State) : Operand → Option U64
  | .mem disp base => some (s.regs base + BitVec.ofInt 64 disp)
  | .symbol name => some (E.symbol name)
  | _ => none

def fetch (w : Width) (s : State) : Operand → U64
  | .imm v => BitVec.ofInt 64 v
  | .reg r => s.regs r
  | .mem disp base => BitVec.ofNat 64 (readMem w.bytes s.memory (s.regs base + BitVec.ofInt 64 disp))
  | .symbol name => BitVec.ofNat 64 (readMem w.bytes s.memory (E.symbol name))
  | .tpoff name => E.tpoff name
  | .thread => E.thread

def deposit (w : Width) (v : U64) (dst : Operand) (s : State) : Except Fault State :=
  match dst with
  | .reg r => .ok (s.write w r v)
  | .mem disp base => .ok {s with memory := writeMem w.bytes s.memory (s.regs base + BitVec.ofInt 64 disp) v.toNat}
  | .symbol name => .ok {s with memory := writeMem w.bytes s.memory (E.symbol name) v.toNat}
  | _ => .error .stuck

def State.unflagged (s : State) : State := {s with flags := none}

def signWord (w : Width) (s : State) : State :=
  (s.write w .rdx (if ((s.regs .rax).setWidth w.bits).msb then -1 else 0)).unflagged

def Instr.exec (i : Instr) (s : State) : Except Fault State :=
  match i with
  | .mov w src dst => deposit E w (fetch E w s src) dst s
  | .extend signed source target src dst =>
    let v := (fetch E source s src).setWidth source.bits
    .ok (s.write target dst (if signed then v.signExtend 64 else v.setWidth 64))
  | .lea src dst =>
    match address E s src with
    | some a => .ok (s.setReg dst a)
    | none => .error .stuck
  | .alu o w src dst => do
    let a := (fetch E w s dst).setWidth w.bits
    let b := (fetch E w s src).setWidth w.bits
    let s ← deposit E w ((o.eval a b).setWidth 64) dst s
    return s.unflagged
  | .cmp w src dst =>
    .ok {s with flags := some (compared ((fetch E w s dst).setWidth w.bits) ((fetch E w s src).setWidth w.bits))}
  | .neg r => .ok (s.setReg r (-s.regs r)).unflagged
  | .not r => .ok (s.setReg r (~~~s.regs r))
  | .shift o w r =>
    let a := (s.regs r).setWidth w.bits
    let count := ((s.regs .rcx).setWidth 8).toNat % (if w = .quad then 64 else 32)
    .ok (s.write w r ((o.eval a count).setWidth 64)).unflagged
  | .push r =>
    let sp := s.regs .rsp - 8
    .ok {s.setReg .rsp sp with memory := writeMem 8 s.memory sp (s.regs r).toNat}
  | .pop r =>
    let v := BitVec.ofNat 64 (readMem 8 s.memory (s.regs .rsp))
    .ok ((s.setReg .rsp (s.regs .rsp + 8)).setReg r v)
  | .set c r =>
    match s.flags with
    | some f => .ok (s.write .byte r (if c.holds f then 1 else 0))
    | none => .error .stuck
  | .cdq => .ok (signWord .long s)
  | .cqo => .ok (signWord .quad s)
  | .div signed w r => do
    let (q,m) ← divided signed ((s.regs .rdx).setWidth w.bits) ((s.regs .rax).setWidth w.bits) ((s.regs r).setWidth w.bits)
    return ((s.write w .rax (q.setWidth 64)).write w .rdx (m.setWidth 64)).unflagged
  | .text _ => .error .stuck

-- Where a label is defined.
def target (code : List Line) (l : Label) : Option Nat := code.findIdx? (· == .label l)

def jump (code : List Line) (l : Label) (s : State) : Except Fault (Nat × State) :=
  match target code l with
  | some pc => .ok (pc,s)
  | none => .error .stuck

def step (code : List Line) (pc : Nat) (s : State) : Except Fault (Nat × State) :=
  match code[pc]? with
  | none => .error .stuck
  | some (.instr i) => do return (pc + 1,← i.exec E s)
  | some (.label _) => .ok (pc + 1,s)
  | some (.jmp l) => jump code l s
  | some (.jcc c l) =>
    match s.flags with
    | some f => if c.holds f then jump code l s else .ok (pc + 1,s)
    | none => .error .stuck

inductive Reaches (code : List Line) : Nat → State → Nat → State → Prop
  | refl (pc : Nat) (s : State) : Reaches code pc s pc s
  | next {pc pc' pc'' : Nat} {s s' s'' : State} (one : step E code pc s = .ok (pc',s')) :
    Reaches code pc' s' pc'' s'' → Reaches code pc s pc'' s''

-- The run stops on a division the processor refuses.
def Faults (code : List Line) (pc : Nat) (s : State) : Prop :=
  ∃ pc' s', Reaches E code pc s pc' s' ∧ step E code pc' s' = .error .divide

end

-- The fragment stands in the code from `pc` on.
def At (code : List Line) (pc : Nat) (fragment : List Line) : Prop := fragment <+: code.drop pc

def Distinct (code : List Line) : Prop :=
  ∀ (i j : Nat) (l : Label), code[i]? = some (.label l) → code[j]? = some (.label l) → i = j

section
variable {E : Env} {code first second : List Line} {pc pc' pc'' : Nat} {s s' s'' : State} {line : Line} {l : Label}

theorem Reaches.trans (one : Reaches E code pc s pc' s') (two : Reaches E code pc' s' pc'' s'') :
    Reaches E code pc s pc'' s'' := by
  induction one with
  | refl => exact two
  | next here _ ih => exact .next here (ih two)

theorem Reaches.faults (one : Reaches E code pc s pc' s') (two : Faults E code pc' s') : Faults E code pc s := by
  obtain ⟨last,state,reached,fault⟩ := two
  exact ⟨last,state,one.trans reached,fault⟩

theorem at_append : At code pc (first ++ second) ↔ At code pc first ∧ At code (pc + first.length) second := by
  unfold At
  constructor
  · rintro ⟨rest,whole⟩
    rw [List.append_assoc] at whole
    refine ⟨⟨second ++ rest,whole⟩,rest,?_⟩
    rw [← List.drop_drop,← whole,List.drop_left]
  · rintro ⟨⟨rest,whole⟩,more,later⟩
    rw [← List.drop_drop,← whole,List.drop_left] at later
    exact ⟨more,by rw [List.append_assoc,later,whole]⟩

theorem at_line (here : At code pc (line :: second)) : code[pc]? = some line ∧ At code (pc + 1) second := by
  obtain ⟨rest,whole⟩ := here
  have split : At code pc ([line] ++ second) := ⟨rest,whole⟩
  refine ⟨?_,(at_append.mp split).2⟩
  have first := congrArg List.head? whole
  rw [List.head?_drop] at first
  exact first.symm

theorem target_at (distinct : Distinct code) (here : code[pc]? = some (.label l)) : target code l = some pc := by
  unfold target
  obtain ⟨inside,same⟩ := List.getElem?_eq_some_iff.mp here
  cases found : code.findIdx? (· == .label l) with
  | none =>
    have absent := List.findIdx?_eq_none_iff.mp found _ (List.mem_of_getElem? here)
    simp at absent
  | some k =>
    obtain ⟨bound,is,_⟩ := List.findIdx?_eq_some_iff_getElem.mp found
    have label : code[k]? = some (.label l) := by
      rw [List.getElem?_eq_getElem bound]
      exact congrArg some (beq_iff_eq.mp is)
    rw [distinct k pc l label here]

theorem reaches_instr {i : Instr} (here : code[pc]? = some (.instr i)) (ran : i.exec E s = .ok s') :
    Reaches E code pc s (pc + 1) s' := by
  refine .next ?_ (.refl _ _)
  simp [step,here,ran]

theorem reaches_label (here : code[pc]? = some (.label l)) : Reaches E code pc s (pc + 1) s :=
  .next (by simp [step,here]) (.refl _ _)

theorem reaches_jmp (distinct : Distinct code) (here : code[pc]? = some (.jmp l)) (there : code[pc']? = some (.label l)) :
    Reaches E code pc s (pc' + 1) s := by
  refine .next ?_ (reaches_label there)
  simp [step,here,jump,target_at distinct there]

theorem reaches_taken {c : Condition} {f : Flags} (distinct : Distinct code) (here : code[pc]? = some (.jcc c l))
    (there : code[pc']? = some (.label l)) (flags : s.flags = some f) (holds : c.holds f = true) :
    Reaches E code pc s (pc' + 1) s := by
  refine .next ?_ (reaches_label there)
  simp [step,here,flags,holds,jump,target_at distinct there]

theorem reaches_passed {c : Condition} {f : Flags} (here : code[pc]? = some (.jcc c l)) (flags : s.flags = some f)
    (fails : c.holds f = false) : Reaches E code pc s (pc + 1) s :=
  .next (by simp [step,here,flags,fails]) (.refl _ _)

theorem faults_instr {i : Instr} (here : code[pc]? = some (.instr i)) (ran : i.exec E s = .error .divide) :
    Faults E code pc s := by
  refine ⟨pc,s,.refl _ _,?_⟩
  simp [step,here,ran]

end

end SandboxStack.X86
