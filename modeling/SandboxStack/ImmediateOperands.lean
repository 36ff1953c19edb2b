import SandboxStack.EncoderRoundTrip
import SandboxStack.NumberText

namespace SandboxStack.Asm
open LittleEndian NumberText X86Code

inductive ImmInstruction where
  | alu (n : Nat)
  | mov
  deriving DecidableEq, Repr

def ImmInstruction.assemble (i : ImmInstruction) (src dst : Op) (suffix : Option Char) : Except EncodeError (List Emission) :=
  match i with
  | .alu n => Asm.alu n src dst suffix
  | .mov => Asm.mov src dst suffix

def ImmInstruction.Listed : ImmInstruction → Prop
  | .alu n => n ∈ group1
  | .mov => True

-- ---- instruction, of two operands ----

def group1Names : List (String × Nat) := [("add",0),("or",1),("and",4),("sub",5),("xor",6),("cmp",7)]

def startsWith (mn start : String) : Bool := start.toList.isPrefixOf mn.toList

def scalarArithmetic (mn : String) : Bool :=
  match mn.toList with
  | [x,y,z,'s',d] => (d = 's' || d = 'd') && ["add","mul","sub","div"].contains (String.ofList [x,y,z])
  | _ => false

-- The mnemonics that have branches of their own ahead of the integer ones.
def handledByName (mn : String) : Bool :=
  ["rep","lock","data16","rex64","jmp","call","movss","movsd","cvtss2sd","cvtsd2ss","ucomiss","ucomisd","xorps","xorpd",
    "pxor"].contains mn || ["cvtsi2s","cvtts","f","movs","movz"].any (startsWith mn) || scalarArithmetic mn

def isXmm (o : Op) : Bool := o.kind = .reg ∧ o.xmm

def handledBefore (mn : String) (a b : Op) : Bool :=
  handledByName mn || (startsWith mn "j" && decide (a.kind = .label)) || (mn == "movq" && (isXmm a || isXmm b))

def stems : List String :=
  ["mov","add","sub","and","cmp","xor","or","test","imul","idiv","div","neg","not","shl","shr","sar","push","pop","lea","inc",
    "dec"]

-- The mnemonic without its size suffix, which a mnemonic of three letters has not.
def splitSuffix (mn : String) : String × Option Char :=
  match mn.toList.getLast? with
  | some c =>
    let stem := String.ofList mn.toList.dropLast
    if mn.length > 3 ∧ ['b','w','l','q'].contains c ∧ stems.any (startsWith mn) ∧
        ¬["mul","shl","shr","sarl"].contains mn ∧ stems.contains stem then (stem,some c)
    else (mn,none)
  | none => (mn,none)

-- `none` is a branch that takes no immediate for `mov` or a group-1 instruction.
def dispatch (stem : String) (suffix : Option Char) (a b : Op) : Option (Except EncodeError (List Emission)) :=
  if stem = "mov" then some (mov a b suffix) else
  match group1Names.find? fun entry => entry.1 == stem with
  | some (_,g) => some (alu g a b suffix)
  | none =>
    if ["lea","test","push","pop","imul","not","neg","mul","div","idiv","inc","dec","shl","shr","sar","sal","xchg",
      "cmpxchg"].contains stem then none
    else some (.error .unknownInstruction)

def instructionEmissions (mn : String) (a b : Op) : Option (Except EncodeError (List Emission)) :=
  if handledBefore mn a b then none else
  let (stem,suffix) := splitSuffix mn
  dispatch stem suffix a b

def ImmInstruction.name : ImmInstruction → String
  | .alu n => ((group1Names.find? fun entry => entry.2 == n).map Prod.fst).getD ""
  | .mov => "mov"

def ImmInstruction.mnemonic (i : ImmInstruction) (suffix : Option Char) : String :=
  String.ofList (i.name.toList ++ suffix.toList)

-- ---- the immediate of parse_op ----

def cSpace (c : Char) : Bool := c = ' ' ∨ (9 ≤ c.toNat ∧ c.toNat ≤ 13)

-- The base that strtoll and strtoull find when they are given base 0.
def baseOf (text : List Char) : Nat × List Char :=
  match text with
  | '0' :: x :: rest => if (x = 'x' ∨ x = 'X') ∧ rest.head?.any (isDigit 16) then (16,rest) else (8,text)
  | ['0'] => (8,text)
  | _ => (10,text)

-- What they read after the sign, where they read a number at all.
def magnitudeParts (text : List Char) : Option (Nat × List Char) :=
  let b := baseOf text
  let digits := b.2.takeWhile (isDigit b.1)
  if digits = [] then none else some (read b.1 digits,b.2.dropWhile (isDigit b.1))

def strtoParts (text : List Char) : Option (Bool × Nat × List Char) :=
  match text.dropWhile cSpace with
  | '-' :: rest => (magnitudeParts rest).map fun m => (true,m)
  | '+' :: rest => (magnitudeParts rest).map fun m => (false,m)
  | rest => (magnitudeParts rest).map fun m => (false,m)

def signedValue (negative : Bool) (magnitude : Nat) : Int := if negative then -magnitude else magnitude

-- The value, unless errno is set.
def strtoll (negative : Bool) (magnitude : Nat) : Option Int :=
  let v := signedValue negative magnitude
  if v < -9223372036854775808 ∨ v > 9223372036854775807 then none else some v

def strtoull (negative : Bool) (magnitude : Nat) : Option Int :=
  if magnitude ≥ 18446744073709551616 then none else some (int64 (signedValue negative magnitude))

-- The branch of parse_op for `$`, on the text after it. Without digits the
-- value is 0 and the rest is the whole text.
def parseImmediate (text : List Char) : Except EncodeError Int :=
  match strtoParts text with
  | none => if text = [] then .ok 0 else .error .badImmediate
  | some (negative,magnitude,rest) =>
    match rest,if text.head? = some '-' then strtoll negative magnitude else strtoull negative magnitude with
    | [],some v => .ok v
    | _,_ => .error .badImmediate

def immediateOp (v : Int) : Op := {Op.empty with kind := .imm,imm := v}

-- The line of a mnemonic, `$` and a text, and a destination.
def immediateLine (mn : String) (text : List Char) (dst : Op) : Option (Except EncodeError (List Emission)) :=
  match parseImmediate text with
  | .ok v => instructionEmissions mn (immediateOp v) dst
  | .error e => some (.error e)

-- ---- the instruction that is asked for ----

def suffixes : List (Option Char) := [none,some 'b',some 'w',some 'l',some 'q']

structure Destination (dst : Op) (suffix : Option Char) (size : Nat) : Prop where
  listed : size ∈ sizes
  suffixed : suffix ∈ suffixes
  addressable : dst.Addressable
  register : dst.kind = .reg → dst.xmm = false ∧ dst.size = size ∧ (dst.high8 → size = 1 ∧ 4 ≤ dst.reg ∧ dst.reg ≤ 7)
  memory : dst.kind = .mem → opSize none none suffix = .ok size

-- The values that a field of the width holds as a signed or as an unsigned
-- number; in 64-bit operations it holds 32 bits, signed.
def InField (size : Nat) (v : Int) : Prop :=
  if size = 8 then -2147483648 ≤ v ∧ v ≤ 2147483647 else -(2 ^ (8 * size - 1)) ≤ v ∧ v < 2 ^ (8 * size)

def Representable (i : ImmInstruction) (dst : Op) (size : Nat) (v : Int) : Prop :=
  (i = .mov ∧ dst.kind = .reg ∧ size = 8) ∨ InField size v

-- The decoded instruction does to the destination what was asked for.
def Performs (i : ImmInstruction) (dst : Op) (size : Nat) (out : Instruction) : Prop :=
  out.field = .digit (match i with
    | .alu n => n
    | .mov => 0) ∧
  (match i with
    | .alu _ => out.opcode = [0x80] ∨ out.opcode = [0x81] ∨ out.opcode = [0x83]
    | .mov => out.opcode = [0xC6] ∨ out.opcode = [0xC7] ∨ ∃ op : U8,out.opcode = [op] ∧ op.toNat / 16 = 0xB) ∧
  out.width = size ∧
  out.operand =
    if dst.kind = .reg then .register (dst.named .sized size)
    else if dst.base = -1 then .relative 0
    else .memory (some dst.base.toNat) none dst.disp

def Carries (v : Int) (size : Nat) (out : Instruction) : Prop := ∃ m,out.immediate = some m ∧ m % 2 ^ (8 * size) = v % 2 ^ (8 * size)

section
variable {i : ImmInstruction} {dst : Op} {suffix : Option Char} {size : Nat} {v : Int}

theorem destination_size (destination : Destination dst suffix size) :
    sameWidth (immediateOp v) dst = .ok () ∧ opSize (some dst) (some (immediateOp v)) suffix = .ok size := by
  constructor
  · simp [sameWidth,immediateOp]
  · rcases destination.addressable.kind with kind | kind
    · obtain ⟨xmm,size,_⟩ := destination.register kind
      simp [opSize,Option.filter,kind,xmm,size]
    · have read := destination.memory kind
      simpa [opSize,Option.filter,kind,immediateOp] using read

theorem sizes_cases (listed : size ∈ sizes) : size = 1 ∨ size = 2 ∨ size = 4 ∨ size = 8 := by
  simpa [sizes] using listed

theorem checkImm_accepts (listed : size ∈ sizes) (fits : InField size v) :
    checkImm v (if size = 8 then 32 else size * 8) (size = 8) = .ok v := by
  rcases sizes_cases listed with rfl | rfl | rfl | rfl
  all_goals simp [InField] at fits
  all_goals simp [checkImm]
  all_goals omega

theorem checkImm_rejects (listed : size ∈ sizes) (unfit : ¬InField size v) :
    ∃ error,checkImm v (if size = 8 then 32 else size * 8) (size = 8) = .error error := by
  refine ⟨_,if_pos ?_⟩
  rcases sizes_cases listed with rfl | rfl | rfl | rfl
  all_goals simp [InField] at unfit
  all_goals simp
  all_goals omega

-- The register of the destination, where it is one.
theorem destination_takes (destination : Destination dst suffix size) (kind : dst.kind = .reg) : dst.Takes .sized size := by
  obtain ⟨_,width,high⟩ := destination.register kind
  obtain ⟨low,top⟩ := destination.addressable.reg kind
  refine ⟨kind,low,top,fun byte => ?_,fun wide => ?_⟩
  · exact ⟨width.trans byte,fun high8 => (high high8).2⟩
  · cases high8 : dst.high8 with
    | false => rfl
    | true => exact absurd (high high8).1 wide

theorem form_operands {f : Form} {n : Nat} (destination : Destination dst suffix size) (digit : f.field = .digit n)
    (cls : f.rm = .sized) (width : f.size = size) (reg : Op) : f.Operands reg dst := by
  refine ⟨fun cls form => ?_,destination.addressable,fun kind => ?_⟩
  · rw [digit] at form
    cases form
  · rw [cls,width]
    exact destination_takes destination kind

theorem form_clear {f : Form} {n : Nat} (destination : Destination dst suffix size) (digit : f.field = .digit n)
    (w : f.w = (size = 8 : Bool)) (reg : Op) : ¬f.Conflict reg dst := by
  rintro ⟨high | high,needed⟩
  · obtain ⟨kind,high8⟩ := high
    obtain ⟨_,_,bounds⟩ := destination.register kind
    obtain ⟨byte,_,top⟩ := bounds high8
    rcases needed with wide | field | extended | field | low
    · simp [w,byte] at wide
    · simp [Form.extendedField,digit] at field
    · simp [Op.extended,kind] at extended
      omega
    · simp [Form.byteField,digit] at field
    · simp [needsRex,high8] at low
  · simp [Form.byteField,digit] at high

theorem needRexFor_wide (destination : Destination dst suffix size) (wide : size ≠ 1) (e : Enc) : needRexFor e dst = e := by
  have plain : ¬needsRex dst := by
    intro low
    simp only [needsRex,decide_eq_true_eq] at low
    obtain ⟨kind,byte,_⟩ := low
    exact wide ((destination.register kind).2.1.symm.trans byte)
  rw [needRexFor,if_neg plain]

-- The short form of a group-1 instruction and the full one.
def aluForm (n size : Nat) (short : Bool) : Form :=
  if size ≠ 1 ∧ short then .sized 0x83 0x83 (.digit n) 1 size
  else .sized 0x80 0x81 (.digit n) (if size = 8 then 4 else size) size

def movForm (size : Nat) : Form := .sized 0xC6 0xC7 (.digit 0) (if size = 8 then 4 else size) size

theorem aluForm_listed : ∀ n ∈ group1,∀ size ∈ sizes,∀ short,aluForm n size short ∈ callerForms := by decide +kernel
theorem movForm_listed : ∀ size ∈ sizes,movForm size ∈ callerForms := by decide +kernel

theorem aluForm_parts (n size : Nat) (short : Bool) :
    (aluForm n size short).field = .digit n ∧ (aluForm n size short).rm = .sized ∧
      (aluForm n size short).size = size ∧ (aluForm n size short).w = (size = 8 : Bool) := by
  unfold aluForm
  split_ifs <;> simp [Form.sized]

theorem aluImm_request {n : Nat} (destination : Destination dst suffix size) (fits : InField size v) :
    aluImm n size v dst =
      .ok ((aluForm n size (fits8 (signedField size v))).request .empty dst (signedField size v)) := by
  rw [aluImm,checkImm_accepts destination.listed fits]
  rcases sizes_cases destination.listed with rfl | rfl | rfl | rfl
  · rfl
  all_goals have plain := needRexFor_wide destination (by decide)
  all_goals cases short : fits8 (signedField _ v)
  all_goals simp [bind,Except.bind,pure,Except.pure,short,plain,aluForm,Form.request,Form.sized,operandSize,Enc.empty]

-- The unsigned reading is turned into the signed one of the same field.
theorem signedField_mod (listed : size ∈ sizes) (v : Int) : signedField size v % 2 ^ (8 * size) = v % 2 ^ (8 * size) := by
  rcases sizes_cases listed with rfl | rfl | rfl | rfl
  all_goals simp [signedField]
  all_goals split_ifs <;> omega

theorem bmod_fits8 (short : fits8 v) : v.bmod (256 ^ 1) = v := by
  simp only [fits8,decide_eq_true_eq] at short
  exact Int.bmod_eq_of_le_mul_two (by omega) (by omega)

theorem bmod_int32 (low : -2147483648 ≤ v) (high : v ≤ 2147483647) : v.bmod (256 ^ 4) = v :=
  Int.bmod_eq_of_le_mul_two (by omega) (by omega)

theorem full_value (listed : size ∈ sizes) (fits : size = 8 → -2147483648 ≤ v ∧ v ≤ 2147483647) :
    v.bmod (256 ^ (if size = 8 then 4 else size)) % 2 ^ (8 * size) = v % 2 ^ (8 * size) := by
  rcases sizes_cases listed with rfl | rfl | rfl | rfl
  · exact Int.bmod_emod
  · exact Int.bmod_emod
  · exact Int.bmod_emod
  · rw [if_pos rfl,bmod_int32 (fits rfl).1 (fits rfl).2]

theorem aluForm_value (n : Nat) (listed : size ∈ sizes) (fits : InField size v) :
    (signedField size v).bmod (256 ^ (aluForm n size (fits8 (signedField size v))).immSize) % 2 ^ (8 * size) =
      v % 2 ^ (8 * size) := by
  by_cases short : size ≠ 1 ∧ fits8 (signedField size v)
  · rw [aluForm,if_pos short,Form.sized,bmod_fits8 short.2]
    exact signedField_mod listed v
  · rw [aluForm,if_neg short,Form.sized,full_value listed]
    · exact signedField_mod listed v
    · rintro rfl
      exact fits

def Answers (i : ImmInstruction) (dst : Op) (size : Nat) (v : Int) (out : List Emission) : Prop :=
  ∃ instruction,(∀ rest,decode (emitted out ++ rest) = some (instruction,rest)) ∧ Performs i dst size instruction ∧
    Carries v size instruction

theorem aluForm_opcode (n size : Nat) (short : Bool) :
    (aluForm n size short).op.map byteOf = [0x80] ∨ (aluForm n size short).op.map byteOf = [0x81] ∨
      (aluForm n size short).op.map byteOf = [0x83] := by
  unfold aluForm Form.sized
  split_ifs <;> simp [byteOf]

theorem aluForm_immSize (n : Nat) (listed : size ∈ sizes) (short : Bool) : (aluForm n size short).immSize ≠ 0 := by
  rcases sizes_cases listed with rfl | rfl | rfl | rfl
  all_goals cases short <;> simp [aluForm,Form.sized]

theorem alu_immediate (n : Nat) (destination : Destination dst suffix size) :
    alu n (immediateOp v) dst suffix = (aluImm n size v dst).bind encode := by
  obtain ⟨widths,width⟩ := destination_size (v := v) destination
  have mem : ¬(dst.kind ≠ .reg ∧ dst.kind ≠ .mem) := by
    rcases destination.addressable.kind with kind | kind <;> simp [kind]
  have kind : (immediateOp v).kind = .imm := rfl
  simp only [alu,widths,bind,Except.bind,width,if_pos kind,if_neg mem]
  rfl

theorem mov_immediate (destination : Destination dst suffix size) :
    mov (immediateOp v) dst suffix = movImm size v dst := by
  obtain ⟨widths,width⟩ := destination_size (v := v) destination
  have kind : (immediateOp v).kind = .imm := rfl
  have notXmm : ¬(((immediateOp v).kind = .reg ∧ (immediateOp v).xmm) ∨ (dst.kind = .reg ∧ dst.xmm)) := by
    rintro (⟨_,xmm⟩ | ⟨register,xmm⟩)
    · cases xmm
    · rw [(destination.register register).1] at xmm
      cases xmm
  simp only [mov,widths,bind,Except.bind,width,if_neg notXmm,if_pos (And.intro kind destination.addressable.kind)]
  rfl

theorem alu_accepts {n : Nat} (listed : n ∈ group1) (destination : Destination dst suffix size) (fits : InField size v) :
    ∃ out,alu n (immediateOp v) dst suffix = .ok out ∧ Answers (.alu n) dst size v out := by
  obtain ⟨digit,cls,sized,w⟩ := aluForm_parts n size (fits8 (signedField size v))
  have member := aluForm_listed n listed size destination.listed (fits8 (signedField size v))
  have operands := form_operands destination digit cls sized .empty
  have clear := form_clear destination digit w .empty
  obtain ⟨out,written,read⟩ := request_read member operands (signedField size v) clear
  refine ⟨out,?_,_,read,⟨?_,?_,?_,?_⟩,_,?_,aluForm_value n destination.listed fits⟩
  · rw [alu_immediate n destination,aluImm_request destination fits]
    exact written
  · simp only [Form.instruction,digit]
  · exact aluForm_opcode n size _
  · exact sized
  · simp only [Form.instruction,cls,sized]
  · rw [Form.instruction,if_neg (aluForm_immSize n destination.listed _)]

theorem alu_rejects {n : Nat} (destination : Destination dst suffix size) (unfit : ¬InField size v) :
    ∃ error,alu n (immediateOp v) dst suffix = .error error := by
  obtain ⟨error,checked⟩ := checkImm_rejects destination.listed unfit
  refine ⟨error,?_⟩
  rw [alu_immediate n destination,aluImm,checked]
  rfl

theorem movForm_value (listed : size ∈ sizes) (fits : InField size v) :
    v.bmod (256 ^ (movForm size).immSize) % 2 ^ (8 * size) = v % 2 ^ (8 * size) := by
  apply full_value listed
  rintro rfl
  exact fits

theorem movForm_immSize (listed : size ∈ sizes) : (movForm size).immSize ≠ 0 := by
  rcases sizes_cases listed with rfl | rfl | rfl | rfl
  all_goals decide

-- `mov` through C6 and C7.
theorem movForm_accepts (destination : Destination dst suffix size) (fits : InField size v) :
    ∃ out,encode ((movForm size).request .empty dst v) = .ok out ∧ Answers .mov dst size v out := by
  have member := movForm_listed size destination.listed
  have operands := form_operands (f := movForm size) destination rfl rfl rfl .empty
  have clear := form_clear (f := movForm size) destination rfl rfl .empty
  obtain ⟨out,written,read⟩ := request_read member operands v clear
  refine ⟨out,written,_,read,⟨rfl,?_,rfl,rfl⟩,_,?_,movForm_value destination.listed fits⟩
  · simp only [Form.instruction,movForm,Form.sized]
    split_ifs <;> simp [byteOf]
  · rw [Form.instruction,if_neg (movForm_immSize destination.listed)]

-- The register and the prefixes of B0 to BF, as a request has them.
def embeddedRequest (size : Nat) (dst : Op) : Enc :=
  ⟨0,size = 8,needsRex dst,[],0,false,some dst,0,0,size = 2⟩

def embeddedOp (size : Nat) (dst : Op) : U8 := byteOf ((if size = 1 then 0xB0 else 0xB8) + (dst.reg % 8).toNat)

def embeddedBytes (size : Nat) (v : Int) (dst : Op) : List U8 :=
  (embeddedRequest size dst).legacy ++
    (if (embeddedRequest size dst).hasRex then [byteOf (embeddedRequest size dst).rex] else []) ++
    embeddedOp size dst :: leBytes size (v % 256 ^ size).toNat

theorem embedded_head {n : Nat} (small : n < 8) (byte : Bool) :
    let b := byteOf ((if byte then 0xB0 else 0xB8) + n)
    Head b ∧ b.toNat / 16 = 0xB ∧ b.toNat % 8 = n ∧ (b.toNat < 0xB8 ↔ byte) ∧ b ≠ 0x0F := by
  have all : ∀ n : Fin 8,∀ byte : Bool,
      let b := byteOf ((if byte then 0xB0 else 0xB8) + n.val)
      (b ≠ 0x66 ∧ b ≠ 0xF2 ∧ b ≠ 0xF3) ∧ b.toNat / 16 = 0xB ∧ b.toNat % 8 = n.val ∧ (b.toNat < 0xB8 ↔ byte) ∧ b ≠ 0x0F := by
    decide
  obtain ⟨⟨opsize,repne,rep⟩,rest⟩ := all ⟨n,small⟩ byte
  exact ⟨⟨opsize,repne,rep⟩,rest⟩

theorem embedded_width (listed : size ∈ sizes) (rex : Rex) (w : rex.w = (size = 8 : Bool)) :
    (if size = 1 then Width.byte else .word).size ⟨size = 2,none⟩ rex = size := by
  rcases sizes_cases listed with rfl | rfl | rfl | rfl
  all_goals simp [Width.size,w]

theorem embedded_hasRex (size : Nat) (kind : dst.kind = .reg) :
    (embeddedRequest size dst).hasRex ↔ size = 8 ∨ dst.reg ≥ 8 ∨ needsRex dst := by
  have plain : (embeddedRequest size dst).rex = 0x40 ↔ size ≠ 8 ∧ dst.reg < 8 := by
    rw [Enc.rex,rexValue_plain]
    simp [embeddedRequest,Op.extended,kind]
  have needRex : (embeddedRequest size dst).needRex = needsRex dst := rfl
  simp only [Enc.hasRex,decide_eq_true_eq,ne_eq,plain,needRex]
  by_cases low : needsRex dst
  · simp [low]
  · simp [low]
    omega

theorem embedded_rex (destination : Destination dst suffix size) (kind : dst.kind = .reg) :
    (dst.high8 → (embeddedRequest size dst).rexPrefix = none) ∧
      (operandSize .sized size = 1 → ¬dst.high8 → 4 ≤ dst.reg → (embeddedRequest size dst).rexPrefix ≠ none) := by
  obtain ⟨_,width,bounds⟩ := destination.register kind
  have hasRex := embedded_hasRex size kind
  constructor
  · intro high8
    obtain ⟨byte,_,top⟩ := bounds high8
    rw [Enc.rexPrefix,if_neg]
    rw [hasRex]
    rintro (wide | extended | low)
    · omega
    · omega
    · simp [needsRex,high8] at low
  · intro byte plain least
    rw [Enc.rexPrefix,if_pos]
    · exact Option.some_ne_none _
    · rw [hasRex]
      have one : dst.size = 1 := width.trans byte
      by_cases large : dst.reg ≥ 8
      · exact .inr (.inl large)
      · refine .inr (.inr ?_)
        simp [needsRex,kind,one,plain,least]
        omega

theorem embedded_reads (destination : Destination dst suffix size) (kind : dst.kind = .reg) (v : Int) (rest : List U8) :
    (embeddedOp size dst).toNat / 16 = 0xB ∧ decode (embeddedBytes size v dst ++ rest) =
      some (⟨none,[embeddedOp size dst],size,.digit 0,.register (dst.named .sized size),some (v.bmod (256 ^ size))⟩,rest) := by
  obtain ⟨low,high⟩ := destination.addressable.reg kind
  obtain ⟨absent,present⟩ := embedded_rex destination kind
  obtain ⟨head,row,number,byte,escape⟩ := embedded_head (n := (dst.reg % 8).toNat) (by omega) (size = 1)
  have named := register_named (destination_takes destination kind) absent present
  have bits := bits_rexPrefix (embeddedRequest size dst)
  have width := embedded_width destination.listed (embeddedRequest size dst).bits rfl
  have extended : (embeddedRequest size dst).bits.b = (dst.reg ≥ 8 : Bool) := by
    simp [Enc.bits,embeddedRequest,Op.extended,kind]
  simp only [decide_eq_true_eq,← embeddedOp.eq_def] at head row number byte escape
  refine ⟨row,?_⟩
  have prefixed := @decode_prefixes (embeddedRequest size dst) (leBytes size (v % 256 ^ size).toNat ++ rest) _
    head (by omega) (.inl rfl)
  rw [embeddedBytes,List.append_assoc,List.cons_append,prefixed]
  simp only [decodeOpcode,opcodeBytes,if_neg escape,Option.bind_eq_bind,Option.bind_some,if_pos row,decodeEmbedded,
    number,byte,bits]
  have prefixes : (embeddedRequest size dst).prefixes = ⟨size = 2,none⟩ := by simp [Enc.prefixes,embeddedRequest]
  simp only [prefixes,width,extended,number_extended low high,named,field_append (leBytes_length size _),signed_leBytes,
    Option.map_some]

theorem bmod_width (size : Nat) (v : Int) : v.bmod (256 ^ size) % 2 ^ (8 * size) = v % 2 ^ (8 * size) := by
  have same : (2 : Int) ^ (8 * size) = ((256 ^ size : Nat) : Int) := by
    rw [pow_mul]
    norm_cast
  rw [same,Int.bmod_emod]

theorem embedded_answers (destination : Destination dst suffix size) (kind : dst.kind = .reg) (v : Int) :
    Answers .mov dst size v (bytes (embeddedBytes size v dst)) := by
  obtain ⟨row,_⟩ := embedded_reads destination kind v []
  refine ⟨⟨none,[embeddedOp size dst],size,.digit 0,.register (dst.named .sized size),some (v.bmod (256 ^ size))⟩,
    fun rest => ?_,⟨rfl,.inr (.inr ⟨_,rfl,row⟩),rfl,(if_pos kind).symm⟩,_,rfl,bmod_width size v⟩
  rw [emitted_bytes]
  exact (embedded_reads destination kind v rest).2

theorem movWide_eq (kind : dst.kind = .reg) (v : Int) : movWide v dst = bytes (embeddedBytes 8 v dst) := by
  have hasRex := (embedded_hasRex 8 kind).mpr (.inl rfl)
  have rex : (embeddedRequest 8 dst).rex = 0x48 ||| (if dst.reg ≥ 8 then 1 else 0) := by
    simp [Enc.rex,embeddedRequest,rexValue,Op.extended,kind]
  rw [movWide,embeddedBytes,if_pos hasRex,rex]
  rfl

theorem movNarrow_eq (destination : Destination dst suffix size) (kind : dst.kind = .reg) (narrow : size ≠ 8) (v : Int) :
    movNarrow size v dst = .ok (bytes (embeddedBytes size v dst)) := by
  obtain ⟨_,width,bounds⟩ := destination.register kind
  have rex : (embeddedRequest size dst).rex = rexValue false false (dst.reg ≥ 8) := by
    simp [Enc.rex,embeddedRequest,Op.extended,kind,narrow]
  have low : needsRex dst = (size = 1 ∧ dst.reg ≥ 4 ∧ dst.reg ≤ 7 ∧ ¬dst.high8 : Bool) := by
    simp only [needsRex,kind,width,true_and]
    congr 1
    apply propext
    tauto
  have hasRex : (embeddedRequest size dst).hasRex = narrowRex size dst := by
    have needRex : (embeddedRequest size dst).needRex = needsRex dst := rfl
    simp only [Enc.hasRex,rex,needRex,low,decide_eq_true_eq,narrowRex]
  have clear : ¬((embeddedRequest size dst).hasRex ∧ dst.high8) := by
    rintro ⟨has,high8⟩
    have absent := (embedded_rex destination kind).1 high8
    rw [Enc.rexPrefix,if_pos has] at absent
    cases absent
  have legacy : (embeddedRequest size dst).legacy = if size = 2 then [byteOf 0x66] else [] := by
    simp [Enc.legacy,embeddedRequest]
  rw [movNarrow,← hasRex,← rex,if_neg clear,embeddedBytes,legacy,leBytes_shifts,embeddedOp]
  simp only [List.append_assoc,List.cons_append,List.nil_append]

-- A request of `mov` that goes through C6 and C7.
theorem movForm_request (plain : ¬(size = 1 ∧ needsRex dst)) (v : Int) :
    (movForm size).request .empty dst v = {setSize .empty size 0xC6 0xC7 with
      rm := some dst,immSize := if size = 8 then 4 else size,imm := v} := by
  by_cases byte : size = 1
  · have low : ¬needsRex dst := fun low => plain ⟨byte,low⟩
    simp [movForm,Form.request,Form.sized,operandSize,byte,setSize,Enc.empty,needRexFor,low]
  · simp [movForm,Form.request,Form.sized,operandSize,byte,setSize,Enc.empty]

theorem mov_accepts (destination : Destination dst suffix size) (fits : Representable .mov dst size v) :
    ∃ out,mov (immediateOp v) dst suffix = .ok out ∧ Answers .mov dst size v out := by
  rw [mov_immediate destination]
  have checked := checkImm_accepts (v := v) destination.listed
  rcases destination.addressable.kind with kind | kind
  · by_cases wide : size = 8
    · subst wide
      by_cases short : fits32 v
      · have field : InField 8 v := by simpa [fits32,InField] using short
        have request := @movForm_request dst 8 (by simp) v
        obtain ⟨out,written,answers⟩ := movForm_accepts destination field
        refine ⟨out,?_,answers⟩
        rw [request] at written
        rw [movImm,if_pos kind,if_pos rfl,if_pos short]
        exact written
      · refine ⟨_,?_,embedded_answers destination kind v⟩
        rw [movImm,if_pos kind,if_pos rfl,if_neg short,movWide_eq kind]
        rfl
    · have field := fits.resolve_left fun parts => wide parts.2.2
      refine ⟨_,?_,embedded_answers destination kind v⟩
      have narrow := checked field
      simp only [if_neg wide,decide_eq_false wide] at narrow
      rw [movImm,if_pos kind,if_neg wide,narrow]
      exact movNarrow_eq destination kind wide v
  · have notReg : dst.kind ≠ .reg := by simp [kind]
    have field := fits.resolve_left fun parts => notReg parts.2.1
    have request := @movForm_request dst size (fun low => by simp [needsRex,kind] at low) v
    obtain ⟨out,written,answers⟩ := movForm_accepts destination field
    refine ⟨out,?_,answers⟩
    rw [request] at written
    rw [movImm,if_neg notReg,checked field]
    exact written

theorem mov_rejects (destination : Destination dst suffix size) (unfit : ¬Representable .mov dst size v) :
    ∃ error,mov (immediateOp v) dst suffix = .error error := by
  rw [mov_immediate destination]
  obtain ⟨error,checked⟩ := checkImm_rejects (v := v) destination.listed fun field => unfit (.inr field)
  refine ⟨error,?_⟩
  rcases destination.addressable.kind with kind | kind
  · have wide : size ≠ 8 := fun wide => unfit (.inl ⟨rfl,kind,wide⟩)
    simp only [if_neg wide,decide_eq_false wide] at checked
    rw [movImm,if_pos kind,if_neg wide,checked]
    rfl
  · rw [movImm,if_neg (by simp [kind]),checked]
    rfl

theorem assemble_accepts (listed : i.Listed) (destination : Destination dst suffix size) (fits : Representable i dst size v) :
    ∃ out,i.assemble (immediateOp v) dst suffix = .ok out ∧ Answers i dst size v out := by
  cases i with
  | alu n => exact alu_accepts listed destination (fits.resolve_left fun parts => nomatch parts.1)
  | mov => exact mov_accepts destination fits

theorem assemble_rejects (destination : Destination dst suffix size) (unfit : ¬Representable i dst size v) :
    ∃ error,i.assemble (immediateOp v) dst suffix = .error error := by
  cases i with
  | alu n => exact alu_rejects destination fun field => unfit (.inr field)
  | mov => exact mov_rejects destination unfit

-- ---- the mnemonic ----

def instructions : List ImmInstruction := .mov :: group1.map .alu

theorem listed_instructions (listed : i.Listed) : i ∈ instructions := by
  cases i with
  | mov => exact List.mem_cons_self ..
  | alu n => exact List.mem_cons_of_mem _ (List.mem_map.mpr ⟨n,listed,rfl⟩)

theorem mnemonic_free : ∀ i ∈ instructions,∀ suffix ∈ suffixes,
    handledByName (i.mnemonic suffix) = false ∧ startsWith (i.mnemonic suffix) "j" = false := by decide +kernel

-- Of two letters, `or` keeps its suffix.
theorem mnemonic_split : ∀ i ∈ instructions,∀ suffix ∈ suffixes,
    splitSuffix (i.mnemonic suffix) = if i = .alu 1 then (i.mnemonic suffix,none) else (i.name,suffix) := by decide +kernel

theorem suffixed_or : ∀ suffix ∈ suffixes,suffix ≠ none → (ImmInstruction.alu 1).mnemonic suffix ≠ "mov" ∧
    group1Names.find? (fun entry => entry.1 == (ImmInstruction.alu 1).mnemonic suffix) = none ∧
    ["lea","test","push","pop","imul","not","neg","mul","div","idiv","inc","dec","shl","shr","sar","sal","xchg",
      "cmpxchg"].contains ((ImmInstruction.alu 1).mnemonic suffix) = false := by decide +kernel

theorem group1_named : ∀ n ∈ group1,(ImmInstruction.alu n).name ≠ "mov" ∧
    group1Names.find? (fun entry => entry.1 == (ImmInstruction.alu n).name) = some ((ImmInstruction.alu n).name,n) := by
  decide +kernel

theorem dispatch_named (listed : i.Listed) (a b : Op) : dispatch i.name suffix a b = some (i.assemble a b suffix) := by
  cases i with
  | mov => rfl
  | alu n =>
    obtain ⟨other,found⟩ := group1_named n listed
    rw [dispatch,if_neg other,found]
    rfl

theorem instruction_dispatched (listed : i.Listed) (destination : Destination dst suffix size) :
    instructionEmissions (i.mnemonic suffix) (immediateOp v) dst =
      dispatch (splitSuffix (i.mnemonic suffix)).1 (splitSuffix (i.mnemonic suffix)).2 (immediateOp v) dst := by
  obtain ⟨named,jump⟩ := mnemonic_free i (listed_instructions listed) suffix destination.suffixed
  have source : isXmm (immediateOp v) = false := rfl
  have target : isXmm dst = false := by
    unfold isXmm
    rw [decide_eq_false_iff_not]
    rintro ⟨kind,xmm⟩
    rw [(destination.register kind).1] at xmm
    cases xmm
  have free : handledBefore (i.mnemonic suffix) (immediateOp v) dst = false := by
    simp [handledBefore,named,jump,source,target]
  rw [instructionEmissions,free]
  rfl

theorem instruction_assembles (listed : i.Listed) (destination : Destination dst suffix size)
    (named : i = .alu 1 → suffix = none) :
    instructionEmissions (i.mnemonic suffix) (immediateOp v) dst = some (i.assemble (immediateOp v) dst suffix) := by
  have split := mnemonic_split i (listed_instructions listed) suffix destination.suffixed
  rw [instruction_dispatched listed destination,split]
  by_cases or : i = .alu 1
  · subst or
    obtain rfl := named rfl
    exact dispatch_named listed _ _
  · rw [if_neg or]
    exact dispatch_named listed _ _

theorem instruction_refuses (listed : (ImmInstruction.alu 1).Listed) (destination : Destination dst suffix size)
    (written : suffix ≠ none) :
    instructionEmissions ((ImmInstruction.alu 1).mnemonic suffix) (immediateOp v) dst = some (.error .unknownInstruction) := by
  have split := mnemonic_split (.alu 1) (listed_instructions listed) suffix destination.suffixed
  obtain ⟨other,unfound,unlisted⟩ := suffixed_or suffix destination.suffixed written
  rw [instruction_dispatched listed destination,split,if_pos rfl,dispatch,if_neg other,unfound]
  simp only [unlisted,Bool.false_eq_true,if_false]

end

-- The line is refused exactly where the constant has no reading in the width,
-- and no constant is changed.
def Faithful (i : ImmInstruction) (suffix : Option Char) (text : List Char) (dst : Op) (size : Nat) (v : Int) : Prop :=
  ((∃ error,immediateLine (i.mnemonic suffix) text dst = some (.error error)) ↔ ¬Representable i dst size v) ∧
    (Representable i dst size v → ∃ out,immediateLine (i.mnemonic suffix) text dst = some (.ok out) ∧ Answers i dst size v out)

theorem immediate_operands (i : ImmInstruction) (listed : i.Listed) {dst : Op} {suffix : Option Char} {size : Nat}
    (destination : Destination dst suffix size) {text : List Char} {v : Int} (parsed : parseImmediate text = .ok v) :
    Faithful i suffix text dst size v ↔ (i = .alu 1 → suffix = none) ∨ ¬Representable i dst size v := by
  have line : immediateLine (i.mnemonic suffix) text dst = instructionEmissions (i.mnemonic suffix) (immediateOp v) dst := by
    rw [immediateLine,parsed]
  unfold Faithful
  rw [line]
  by_cases named : i = .alu 1 → suffix = none
  · rw [instruction_assembles listed destination named]
    refine iff_of_true ⟨⟨?_,fun unfit => ?_⟩,fun fits => ?_⟩ (.inl named)
    · rintro ⟨error,refused⟩ fits
      obtain ⟨out,written,_⟩ := assemble_accepts listed destination fits
      rw [written] at refused
      cases refused
    · obtain ⟨error,refused⟩ := assemble_rejects destination unfit
      exact ⟨error,congrArg some refused⟩
    · obtain ⟨out,written,answers⟩ := assemble_accepts listed destination fits
      exact ⟨out,congrArg some written,answers⟩
  · obtain ⟨rfl,written⟩ := Classical.not_imp.mp named
    rw [instruction_refuses listed destination written]
    constructor
    · intro faithful
      exact .inr (faithful.1.mp ⟨_,rfl⟩)
    · rintro (plain | unfit)
      · exact absurd (plain rfl) written
      · exact ⟨iff_of_true ⟨_,rfl⟩ unfit,fun fits => absurd fits unfit⟩

namespace Controls

-- `cmpl $0xffffff80,-8(%r12)`, `movq $0x80000000,%rax` and `orl $1,(%rax)`.
def rax : Op := {Op.empty with kind := .reg,size := 8}

def atRax : Op := {Op.empty with kind := .mem}

theorem slot_destination : Destination slot (some 'l') 4 :=
  ⟨by decide,by decide,slot_addressable,(nomatch ·),fun _ => rfl⟩

theorem rax_destination : Destination rax (some 'q') 8 :=
  ⟨by decide,by decide,⟨.inl rfl,fun _ => by decide,(nomatch ·),(nomatch ·)⟩,fun _ => ⟨rfl,rfl,(nomatch ·)⟩,(nomatch ·)⟩

theorem atRax_destination : Destination atRax (some 'l') 4 :=
  ⟨by decide,by decide,⟨.inr rfl,(nomatch ·),fun _ => .inr (by decide),fun _ _ => by decide⟩,(nomatch ·),fun _ => rfl⟩

theorem immediate_operands_hold :
    Faithful (.alu 7) (some 'l') "0xffffff80".toList slot 4 0xffffff80 ∧
      Faithful .mov (some 'q') "0x80000000".toList rax 8 0x80000000 :=
  ⟨(immediate_operands (.alu 7) (show 7 ∈ group1 by decide) slot_destination (by decide +kernel)).mpr (.inl nofun),
    (immediate_operands .mov trivial rax_destination (by decide +kernel)).mpr (.inl nofun)⟩

-- `orl` is an unknown instruction, and 1 has a reading in 32 bits.
theorem immediate_operands_fail :
    immediateLine "orl" ['1'] atRax = some (.error .unknownInstruction) ∧ Destination atRax (some 'l') 4 ∧
      Representable (.alu 1) atRax 4 1 ∧ ¬Faithful (.alu 1) (some 'l') ['1'] atRax 4 1 := by
  have line : immediateLine "orl" ['1'] atRax = some (.error .unknownInstruction) := by decide +kernel
  have fits : Representable (.alu 1) atRax 4 1 := .inr ⟨by decide,by decide⟩
  have written : (ImmInstruction.alu 1).mnemonic (some 'l') = "orl" := by decide +kernel
  refine ⟨line,atRax_destination,fits,fun faithful => ?_⟩
  unfold Faithful at faithful
  rw [written] at faithful
  exact faithful.1.mp ⟨_,line⟩ fits

end Controls

end SandboxStack.Asm
