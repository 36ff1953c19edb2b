import SandboxStack.EncoderStages

namespace SandboxStack.Asm
open X86Code

inductive FormField where
  | digit (n : Nat)
  | operand (cls : X86Code.Class)
  deriving DecidableEq, Repr

-- What the callers of encode put into a request beside its operands.
structure Form where
  prefixByte : Nat
  op : List Nat
  field : FormField
  rm : X86Code.Class
  size : Nat
  w : Bool
  opsize16 : Bool
  immSize : Nat
  deriving DecidableEq, Repr

def Form.sized (op8 op : Nat) (field : FormField) (immSize size : Nat) : Form :=
  ⟨0,[if size = 1 then op8 else op],field,.sized,size,size = 8,size = 2,immSize⟩

def Form.escaped (op : Nat) (field : FormField) (rm : X86Code.Class) (size : Nat) : Form :=
  ⟨0,[0x0F,op],field,rm,size,size = 8,size = 2,0⟩

def Form.sse (prefixByte op : Nat) (reg rm : X86Code.Class) (size : Nat) : Form :=
  ⟨prefixByte,[0x0F,op],.operand reg,rm,size,size = 8,false,0⟩

def sizes : List Nat := [1,2,4,8]
def wideSizes : List Nat := [2,4,8]
def group1 : List Nat := [0,1,4,5,6,7]

def aluForms : List Form := group1.flatMap fun n =>
  (sizes.flatMap fun size =>
    [.sized 0x80 0x81 (.digit n) (if size = 8 then 4 else size) size,.sized (n * 8) (n * 8 + 1) (.operand .sized) 0 size,
      .sized (n * 8 + 2) (n * 8 + 3) (.operand .sized) 0 size]) ++
  wideSizes.map fun size => .sized 0x83 0x83 (.digit n) 1 size

def movForms : List Form := sizes.flatMap fun size =>
  [.sized 0xC6 0xC7 (.digit 0) (if size = 8 then 4 else size) size,.sized 0x88 0x89 (.operand .sized) 0 size,
    .sized 0x8A 0x8B (.operand .sized) 0 size]

-- `lea`, and the loads from the GOT that become one.
def leaForms : List Form := wideSizes.map fun size => .sized 0x8D 0x8D (.operand .sized) 0 size

def movxForms : List Form :=
  ⟨0,[0x63],.operand .sized,.fixed 4,8,true,false,0⟩ :: wideSizes.flatMap fun size =>
    [.escaped 0xB6 (.operand .sized) (.fixed 1) size,.escaped 0xB7 (.operand .sized) (.fixed 2) size,
      .escaped 0xBE (.operand .sized) (.fixed 1) size,.escaped 0xBF (.operand .sized) (.fixed 2) size]

def testForms : List Form := sizes.map fun size => .sized 0x84 0x85 (.operand .sized) 0 size

def imulForms : List Form := wideSizes.map fun size => .escaped 0xAF (.operand .sized) .sized size

-- not, neg, mul, imul, div and idiv, then inc and dec.
def unaryForms : List Form := sizes.flatMap fun size =>
  ([2,3,4,5,6,7].map fun n => .sized 0xF6 0xF7 (.digit n) 0 size) ++ [0,1].map fun n => .sized 0xFE 0xFF (.digit n) 0 size

def shiftForms : List Form := sizes.flatMap fun size => [4,5,7].flatMap fun n =>
  [.sized 0xD2 0xD3 (.digit n) 0 size,.sized 0xC0 0xC1 (.digit n) 1 size,.sized 0xD0 0xD1 (.digit n) 0 size]

def setForms : List Form := (List.range 16).map fun cc => .escaped (0x90 + cc) (.digit 0) .sized 1

-- jmp and call through a register.
def branchForms : List Form := [4,2].map fun n => ⟨0,[0xFF],.digit n,.sized,8,false,false,0⟩

def sseForms : List Form :=
  ([0xF3,0xF2].flatMap fun p =>
    ([0x10,0x11,0x58,0x59,0x5A,0x5C,0x5E].map fun op => .sse p op .vector .vector 4) ++
    [4,8].flatMap fun size => [.sse p 0x2A .vector .sized size,.sse p 0x2C .sized .vector size]) ++
  ([0,0x66].flatMap fun p => [.sse p 0x2E .vector .vector 4,.sse p 0x57 .vector .vector 4]) ++
  [.sse 0x66 0xEF .vector .vector 4,.sse 0xF3 0x7E .vector .vector 4,.sse 0x66 0x6E .vector .sized 8,
    .sse 0x66 0x7E .vector .sized 8]

def callerForms : List Form :=
  aluForms ++ movForms ++ leaForms ++ movxForms ++ testForms ++ imulForms ++ unaryForms ++ shiftForms ++ setForms ++
    branchForms ++ sseForms

-- The size of the operands of a class.
def operandSize (cls : X86Code.Class) (size : Nat) : Nat :=
  match cls with
  | .sized => size
  | .fixed n => n
  | .vector => 16

def Form.request (f : Form) (reg rm : Op) (imm : Int) : Enc :=
  let e : Enc := ⟨f.prefixByte,f.w,false,f.op,0,false,some rm,f.immSize,imm,f.opsize16⟩
  let e := match f.field with
    | .digit n => {e with reg := n}
    | .operand cls => if operandSize cls f.size = 1 then setReg e reg else {e with reg := reg.reg}
  if operandSize f.rm f.size = 1 then needRexFor e rm else e

-- A register that an operand of the class can be: the number alone matters,
-- but for byte registers, where the numbers 4 to 7 are used twice.
structure Op.Takes (o : Op) (cls : X86Code.Class) (size : Nat) : Prop where
  kind : o.kind = .reg
  low : 0 ≤ o.reg
  high : o.reg ≤ 15
  byte : operandSize cls size = 1 → o.size = 1 ∧ (o.high8 → 4 ≤ o.reg ∧ o.reg ≤ 7)
  plain : operandSize cls size ≠ 1 → o.high8 = false

def Op.named (o : Op) (cls : X86Code.Class) (size : Nat) : Register :=
  if cls = .vector then .vector o.reg.toNat
  else if o.high8 then .high o.reg.toNat
  else .general (operandSize cls size) o.reg.toNat

structure Form.Operands (f : Form) (reg rm : Op) : Prop where
  field : ∀ cls,f.field = .operand cls → reg.Takes cls f.size
  addressable : rm.Addressable
  register : rm.kind = .reg → rm.Takes f.rm f.size

-- What the request asks for. The symbol of a rip-relative operand is left to
-- its fixup, and the immediate is the value of its field.
def Form.instruction (f : Form) (reg rm : Op) (imm : Int) : Instruction :=
  ⟨if f.prefixByte = 0 then none else some (byteOf f.prefixByte),f.op.map byteOf,f.size,
    match f.field with
    | .digit n => .digit n
    | .operand cls => .register (reg.named cls f.size),
    if rm.kind = .reg then .register (rm.named f.rm f.size)
    else if rm.base = -1 then .relative 0
    else .memory (some rm.base.toNat) none rm.disp,
    if f.immSize = 0 then none else some (imm.bmod (256 ^ f.immSize))⟩

-- An operand in the reg field, of byte size.
def Form.byteField (f : Form) : Bool :=
  match f.field with
  | .digit _ => false
  | .operand cls => operandSize cls f.size = 1

def Form.extendedField (f : Form) (reg : Op) : Bool :=
  match f.field with
  | .digit _ => false
  | .operand _ => reg.reg ≥ 8

def Form.HighByte (f : Form) (reg rm : Op) : Prop := (rm.kind = .reg ∧ rm.high8) ∨ (f.byteField ∧ reg.high8)

def Form.RexNeeded (f : Form) (reg rm : Op) : Prop :=
  f.w ∨ f.extendedField reg ∨ rm.extended ∨ (f.byteField ∧ needsRex reg) ∨ (operandSize f.rm f.size = 1 ∧ needsRex rm)

def Form.Conflict (f : Form) (reg rm : Op) : Prop := f.HighByte reg rm ∧ f.RexNeeded reg rm

def Form.prefixes (f : Form) : Prefixes :=
  ⟨f.opsize16 || f.prefixByte = 0x66,if f.prefixByte = 0xF2 ∨ f.prefixByte = 0xF3 then some (byteOf f.prefixByte) else none⟩

-- What decoding makes of the opcode of a form.
def Form.ShapedBy (f : Form) (s : Shape) : Bool :=
  (match f.field with
    | .digit _ => s.reg = none
    | .operand cls => s.reg = some cls) &&
  s.rm = f.rm && s.width.size f.prefixes ⟨f.w,false,false,false⟩ = f.size && s.immediate.size f.size = f.immSize &&
  selects s f.prefixes = if f.prefixByte = 0 then none else some (byteOf f.prefixByte)

def Form.digits (f : Form) : List Nat :=
  match f.field with
  | .digit n => [n]
  | .operand _ => List.range 8

def Form.Recognized (f : Form) : Bool :=
  Opcode f.op && [0,0x66,0xF2,0xF3].contains f.prefixByte && [0,1,2,4].contains f.immSize &&
    f.digits.all fun digit => digit < 8 && (X86Code.shape f.prefixes (f.op.map byteOf) digit).any f.ShapedBy

theorem callerForms_recognized : ∀ f ∈ callerForms,f.Recognized := by decide +kernel

section
variable {f : Form} {reg rm : Op} {imm : Int}

theorem width_size (w : Width) (p : Prefixes) (rex : Rex) : w.size p rex = w.size p ⟨rex.w,false,false,false⟩ := by
  cases w <;> rfl

theorem request_parts (f : Form) (reg rm : Op) (imm : Int) :
    let e := f.request reg rm imm
    e.prefixByte = f.prefixByte ∧ e.w = f.w ∧ e.op = f.op ∧ e.rm = some rm ∧ e.immSize = f.immSize ∧ e.imm = imm ∧
      e.opsize16 = f.opsize16 := by
  unfold Form.request setReg needRexFor
  cases f.field <;> simp <;> split_ifs <;> simp

theorem request_reg (f : Form) (reg rm : Op) (imm : Int) :
    (f.request reg rm imm).reg = match f.field with
      | .digit n => (n : Int)
      | .operand _ => reg.reg := by
  unfold Form.request setReg needRexFor
  cases f.field <;> simp <;> split_ifs <;> simp

theorem request_rex (f : Form) (reg rm : Op) (imm : Int) :
    let e := f.request reg rm imm
    e.regHigh8 = (f.byteField && reg.high8) ∧
      e.needRex = (f.byteField && needsRex reg || (operandSize f.rm f.size = 1 && needsRex rm)) := by
  unfold Form.request setReg needRexFor Form.byteField
  cases f.field <;> simp <;> split_ifs <;> simp_all

theorem digits_parts (recognized : f.Recognized) :
    Opcode f.op ∧ (f.prefixByte = 0 ∨ f.prefixByte = 0x66 ∨ f.prefixByte = 0xF2 ∨ f.prefixByte = 0xF3) ∧ ImmSize f.immSize ∧
      ∀ digit ∈ f.digits,digit < 8 ∧ ∃ s,X86Code.shape f.prefixes (f.op.map byteOf) digit = some s ∧ f.ShapedBy s := by
  simp only [Form.Recognized,Bool.and_eq_true,List.contains_eq_mem,decide_eq_true_eq,List.mem_cons,List.not_mem_nil,
    or_false,List.all_eq_true,Option.any_eq_true] at recognized
  obtain ⟨⟨⟨opcode,legacy⟩,listed⟩,digits⟩ := recognized
  refine ⟨opcode,legacy,?_,fun digit member => digits digit member⟩
  unfold ImmSize
  omega

theorem request_hasRex (f : Form) (reg rm : Op) (imm : Int)
    (small : ∀ n,f.field = .digit n → n < 8) : (f.request reg rm imm).hasRex ↔ f.RexNeeded reg rm := by
  obtain ⟨_,w,_,operand,_⟩ := request_parts f reg rm imm
  have number := request_reg f reg rm imm
  obtain ⟨_,needRex⟩ := request_rex f reg rm imm
  have extended : ((f.request reg rm imm).reg ≥ 8) ↔ f.extendedField reg := by
    rw [number,Form.extendedField]
    cases field : f.field with
    | digit n =>
      have bound := small n field
      simp
      omega
    | operand cls => simp
  have plain : (f.request reg rm imm).rex = 0x40 ↔ f.w = false ∧ f.extendedField reg = false ∧ rm.extended = false := by
    rw [Enc.rex,rexValue_plain,w,operand]
    simp [extended]
  unfold Enc.hasRex Form.RexNeeded
  simp only [decide_eq_true_eq,ne_eq,plain,needRex,Bool.or_eq_true,Bool.and_eq_true]
  cases f.w <;> cases f.extendedField reg <;> cases rm.extended <;> simp

theorem request_conflict (f : Form) (reg rm : Op) (imm : Int) (small : ∀ n,f.field = .digit n → n < 8) :
    (f.request reg rm imm).Conflict rm ↔ f.Conflict reg rm := by
  obtain ⟨regHigh8,_⟩ := request_rex f reg rm imm
  unfold Enc.Conflict Form.Conflict Form.HighByte
  rw [request_hasRex f reg rm imm small,regHigh8,Bool.and_eq_true]

theorem register_sized {cls : X86Code.Class} (integer : cls ≠ .vector) (size : Nat) (rex : Option Rex) (n : Nat) :
    register cls size rex n =
      if operandSize cls size = 1 ∧ rex = none ∧ 4 ≤ n then .high n else .general (operandSize cls size) n := by
  cases cls with
  | vector => exact absurd rfl integer
  | sized => rfl
  | fixed k => rfl

-- A register is read back where REX is there for the byte registers that need
-- it, and is not there for those that cannot have it.
theorem register_named {cls : X86Code.Class} {size : Nat} {o : Op} {rex : Option Rex} (takes : o.Takes cls size)
    (absent : o.high8 → rex = none) (present : operandSize cls size = 1 → ¬o.high8 → 4 ≤ o.reg → rex ≠ none) :
    register cls size rex o.reg.toNat = o.named cls size := by
  have low := takes.low
  by_cases vector : cls = .vector
  · subst vector
    rfl
  · rw [register_sized vector,Op.named,if_neg vector]
    by_cases byte : operandSize cls size = 1
    · by_cases high : o.high8
      · obtain ⟨least,_⟩ := (takes.byte byte).2 high
        rw [if_pos ⟨byte,absent high,by omega⟩,if_pos high]
      · have general : ¬(operandSize cls size = 1 ∧ rex = none ∧ 4 ≤ o.reg.toNat) :=
          fun parts => present byte high (by omega) parts.2.1
        rw [if_neg general,if_neg high]
    · have plain := takes.plain byte
      rw [if_neg fun parts => byte parts.1,plain,if_neg Bool.false_ne_true]

theorem field_digit (digits : ∀ digit ∈ f.digits,digit < 8) {n : Nat} (form : f.field = .digit n) : n < 8 := by
  apply digits
  simp [Form.digits,form]

theorem reg_digits (digits : ∀ digit ∈ f.digits,digit < 8) (reg rm : Op) (imm : Int) :
    ((f.request reg rm imm).reg % 8).toNat ∈ f.digits := by
  rw [request_reg]
  cases form : f.field with
  | digit n =>
    have small := field_digit digits form
    simp only [Form.digits,form,List.mem_singleton]
    omega
  | operand cls =>
    simp only [Form.digits,form,List.mem_range]
    omega

theorem request_prefixes (f : Form) (reg rm : Op) (imm : Int) : (f.request reg rm imm).prefixes = f.prefixes := by
  obtain ⟨legacy,_,_,_,_,_,opsize⟩ := request_parts f reg rm imm
  simp only [Enc.prefixes,Form.prefixes,legacy,opsize]

theorem request_width {s : Shape} (shaped : f.ShapedBy s) (reg rm : Op) (imm : Int) :
    s.width.size (f.request reg rm imm).prefixes (f.request reg rm imm).bits = f.size := by
  obtain ⟨_,w,_⟩ := request_parts f reg rm imm
  simp only [Form.ShapedBy,Bool.and_eq_true,decide_eq_true_eq] at shaped
  rw [request_prefixes,width_size,Enc.bits,w]
  exact shaped.1.1.2

theorem request_known (recognized : f.Recognized) (reg rm : Op) (imm : Int) :
    ∃ s,(f.request reg rm imm).Known s ∧ f.ShapedBy s := by
  obtain ⟨opcode,legacy,listed,digits⟩ := digits_parts recognized
  obtain ⟨prefixByte,w,op,operand,immSize,_⟩ := request_parts f reg rm imm
  have member := reg_digits (fun digit member => (digits digit member).1) reg rm imm
  obtain ⟨_,s,shape,shaped⟩ := digits _ member
  have width := request_width shaped reg rm imm
  refine ⟨s,⟨?_,?_,?_,?_,?_⟩,shaped⟩
  · rwa [op]
  · rwa [prefixByte]
  · rwa [request_prefixes,op]
  · rw [width,immSize]
    simp only [Form.ShapedBy,Bool.and_eq_true,decide_eq_true_eq] at shaped
    exact shaped.1.2
  · rwa [immSize]

theorem byte_present {cls : X86Code.Class} {o : Op} (takes : o.Takes cls f.size) (byte : operandSize cls f.size = 1)
    (high : ¬o.high8) (least : 4 ≤ o.reg) : 8 ≤ o.reg ∨ needsRex o := by
  have size := (takes.byte byte).1
  by_cases large : 8 ≤ o.reg
  · exact .inl large
  · right
    simp [needsRex,takes.kind,size,high,least]
    omega

theorem rex_absent (small : ∀ n,f.field = .digit n → n < 8) (clear : ¬f.Conflict reg rm) (high : f.HighByte reg rm) :
    (f.request reg rm imm).rexPrefix = none := by
  rw [Enc.rexPrefix,if_neg]
  exact fun has => clear ⟨high,(request_hasRex f reg rm imm small).mp has⟩

theorem rex_present (small : ∀ n,f.field = .digit n → n < 8) (needed : f.RexNeeded reg rm) :
    (f.request reg rm imm).rexPrefix ≠ none := by
  rw [Enc.rexPrefix,if_pos ((request_hasRex f reg rm imm small).mpr needed)]
  exact Option.some_ne_none _

theorem request_field {s : Shape} (small : ∀ n,f.field = .digit n → n < 8) (operands : f.Operands reg rm)
    (clear : ¬f.Conflict reg rm) (shaped : match f.field with
      | .digit _ => s.reg = none
      | .operand cls => s.reg = some cls) :
    fieldOf s f.size (f.request reg rm imm).rexPrefix ((f.request reg rm imm).reg % 8).toNat =
      match f.field with
      | .digit n => .digit n
      | .operand cls => .register (reg.named cls f.size) := by
  have reqReg := request_reg f reg rm imm
  have bits := bits_rexPrefix (f.request reg rm imm)
  cases form : f.field with
  | digit n =>
    have bound := small n form
    simp only [form] at shaped reqReg
    rw [fieldOf,shaped,reqReg]
    simp
    omega
  | operand cls =>
    have takes := operands.field cls form
    simp only [form] at shaped reqReg
    rw [fieldOf,shaped,bits,Enc.bits,reqReg]
    simp only [number_extended takes.low takes.high]
    congr 1
    apply register_named takes
    · intro high
      by_cases byte : operandSize cls f.size = 1
      · apply rex_absent small clear
        exact .inr ⟨by simp [Form.byteField,form,byte],high⟩
      · rw [takes.plain byte] at high
        cases high
    · intro byte high least
      apply rex_present small
      rcases byte_present takes byte high least with extended | needs
      · exact .inr (.inl (by simpa [Form.extendedField,form] using extended))
      · exact .inr (.inr (.inr (.inl ⟨by simp [Form.byteField,form,byte],needs⟩)))

theorem request_operand {s : Shape} (small : ∀ n,f.field = .digit n → n < 8) (operands : f.Operands reg rm)
    (clear : ¬f.Conflict reg rm) (shaped : s.rm = f.rm) :
    operandOf s f.size (f.request reg rm imm).rexPrefix rm =
      if rm.kind = .reg then .register (rm.named f.rm f.size)
      else if rm.base = -1 then .relative 0
      else .memory (some rm.base.toNat) none rm.disp := by
  unfold operandOf
  split
  · rename_i kind
    have takes := operands.register kind
    rw [shaped]
    congr 1
    apply register_named takes
    · intro high
      exact rex_absent small clear (.inl ⟨kind,high⟩)
    · intro byte high least
      apply rex_present small
      rcases byte_present takes byte high least with extended | needs
      · exact .inr (.inr (.inl (by simp [Op.extended,kind,extended])))
      · exact .inr (.inr (.inr (.inr ⟨byte,needs⟩)))
  · rfl

theorem request_instruction {s : Shape} (recognized : f.Recognized) (shaped : f.ShapedBy s) (operands : f.Operands reg rm)
    (imm : Int) (clear : ¬f.Conflict reg rm) : (f.request reg rm imm).instruction s rm = f.instruction reg rm imm := by
  obtain ⟨_,_,_,digits⟩ := digits_parts recognized
  have small := fun n (form : f.field = .digit n) => field_digit (fun digit member => (digits digit member).1) form
  obtain ⟨_,_,op,_,immSize,immediate,_⟩ := request_parts f reg rm imm
  have width := request_width shaped reg rm imm
  simp only [Form.ShapedBy,Bool.and_eq_true,decide_eq_true_eq] at shaped
  obtain ⟨⟨⟨⟨field,cls⟩,_⟩,_⟩,selected⟩ := shaped
  have fieldShaped : match f.field with
      | .digit _ => s.reg = none
      | .operand cls => s.reg = some cls := by
    cases form : f.field <;> simpa [form] using field
  simp only [Enc.instruction,Form.instruction,width]
  rw [request_prefixes,selected,op,request_field small operands clear fieldShaped,
    request_operand small operands clear cls,immSize,immediate]
  rfl

theorem request_read {f : Form} (listed : f ∈ callerForms) {reg rm : Op} (operands : f.Operands reg rm) (imm : Int)
    (clear : ¬f.Conflict reg rm) :
    ∃ out,encode (f.request reg rm imm) = .ok out ∧
      ∀ rest,decode (emitted out ++ rest) = some (f.instruction reg rm imm,rest) := by
  have recognized := callerForms_recognized f listed
  obtain ⟨_,_,_,digits⟩ := digits_parts recognized
  have small := fun n (form : f.field = .digit n) => field_digit (fun digit member => (digits digit member).1) form
  obtain ⟨_,_,_,operand,_⟩ := request_parts f reg rm imm
  obtain ⟨s,known,shaped⟩ := request_known recognized reg rm imm
  have clash : ¬(f.request reg rm imm).Conflict rm := by
    rwa [request_conflict f reg rm imm small]
  obtain ⟨out,written,read⟩ := decode_encode known operand operands.addressable clash
  refine ⟨out,written,fun rest => ?_⟩
  rw [read rest,request_instruction recognized shaped operands imm clear]

theorem request_refused {f : Form} (listed : f ∈ callerForms) {reg rm : Op} (imm : Int) (conflict : f.Conflict reg rm) :
    encode (f.request reg rm imm) = .error .highByteWithRex := by
  obtain ⟨_,_,_,digits⟩ := digits_parts (callerForms_recognized f listed)
  have small := fun n (form : f.field = .digit n) => field_digit (fun digit member => (digits digit member).1) form
  obtain ⟨_,_,_,operand,_⟩ := request_parts f reg rm imm
  apply encode_conflict operand
  rwa [request_conflict f reg rm imm small]

-- Every request of a caller is read back as it was meant, unless a high byte
-- register stands beside something that needs REX.
theorem encode_decodable {f : Form} (listed : f ∈ callerForms) {reg rm : Op} (operands : f.Operands reg rm) (imm : Int) :
    (f.Conflict reg rm → encode (f.request reg rm imm) = .error .highByteWithRex) ∧
    (¬f.Conflict reg rm → ∃ out,encode (f.request reg rm imm) = .ok out ∧
      ∀ rest,decode (emitted out ++ rest) = some (f.instruction reg rm imm,rest)) ∧
    (f.immSize ≠ 0 → -(256 ^ f.immSize) ≤ 2 * imm → 2 * imm < 256 ^ f.immSize →
      (f.instruction reg rm imm).immediate = some imm) := by
  refine ⟨request_refused listed imm,request_read listed operands imm,?_⟩
  intro nonzero low high
  have value : imm.bmod (256 ^ f.immSize) = imm := by
    apply Int.bmod_eq_of_le_mul_two
    · push_cast
      omega
    · push_cast
      omega
  simp only [Form.instruction,if_neg nonzero,value]

end

namespace Controls

-- `movb %sil,-8(%r12)` and `movb %ah,-8(%r12)`.
def storeByte : Form := .sized 0x88 0x89 (.operand .sized) 0 1
def sil : Op := {Op.empty with kind := .reg,reg := 6,size := 1}
def ah : Op := {Op.empty with kind := .reg,reg := 4,size := 1,high8 := true}
def slot : Op := {Op.empty with kind := .mem,base := 12,disp := -8}

theorem slot_addressable : slot.Addressable := ⟨.inr rfl,(nomatch ·),fun _ => .inr (by decide),fun _ _ => by decide⟩

theorem store_operands {reg : Op} (takes : reg.Takes .sized 1) : storeByte.Operands reg slot :=
  ⟨fun _ form => by cases form; exact takes,slot_addressable,(nomatch ·)⟩

theorem sil_takes : sil.Takes .sized 1 := ⟨rfl,by decide,by decide,fun _ => ⟨rfl,(nomatch ·)⟩,fun _ => rfl⟩
theorem ah_takes : ah.Takes .sized 1 := ⟨rfl,by decide,by decide,fun _ => ⟨rfl,fun _ => by decide⟩,fun other => absurd rfl other⟩

theorem encode_decodable_store :
    (∃ out,encode (storeByte.request sil slot 0) = .ok out ∧
      ∀ rest,decode (emitted out ++ rest) = some (storeByte.instruction sil slot 0,rest)) ∧
    encode (storeByte.request ah slot 0) = .error .highByteWithRex := by
  have listed : storeByte ∈ callerForms := by decide
  have clear : ¬storeByte.Conflict sil slot := by
    rintro ⟨high | high,_⟩
    · cases high.1
    · cases high.2
  have conflict : storeByte.Conflict ah slot := ⟨.inr ⟨rfl,rfl⟩,.inr (.inr (.inl rfl))⟩
  exact ⟨(encode_decodable listed (store_operands sil_takes) 0).2.1 clear,
    (encode_decodable listed (store_operands ah_takes) 0).1 conflict⟩

end Controls

end SandboxStack.Asm
