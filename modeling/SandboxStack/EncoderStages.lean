import SandboxStack.X86Decoder
import SandboxStack.X86Encoder

namespace SandboxStack.Asm
open LittleEndian X86Code

-- The bytes that an emission leaves in the section.
def emitted (es : List Emission) : List U8 := es.filterMap fun
  | .byte b => some b
  | .fixup _ _ => none

@[simp] theorem emitted_bytes (bs : List U8) : emitted (bytes bs) = bs := by
  induction bs with
  | nil => rfl
  | cons b rest ih => exact congrArg (b :: ·) ih

@[simp] theorem emitted_append (es es' : List Emission) : emitted (es ++ es') = emitted es ++ emitted es' :=
  List.filterMap_append

-- An operand that ModRM can name.
structure Op.Addressable (o : Op) : Prop where
  kind : o.kind = .reg ∨ o.kind = .mem
  reg : o.kind = .reg → 0 ≤ o.reg ∧ o.reg ≤ 15
  base : o.kind = .mem → o.base = -1 ∨ 0 ≤ o.base ∧ o.base ≤ 15
  disp : o.kind = .mem → o.base ≠ -1 → -2147483648 ≤ o.disp ∧ o.disp ≤ 2147483647

def Enc.prefixes (e : Enc) : Prefixes :=
  ⟨e.opsize16 || e.prefixByte = 0x66,if e.prefixByte = 0xF2 ∨ e.prefixByte = 0xF3 then some (byteOf e.prefixByte) else none⟩

def Enc.bits (e : Enc) : Rex := ⟨e.w,e.reg ≥ 8,false,e.rm.any Op.extended⟩

def Enc.rexPrefix (e : Enc) : Option Rex := if e.hasRex then some e.bits else none

def operandOf (s : Shape) (width : Nat) (rex : Option Rex) (o : Op) : Operand :=
  if o.kind = .reg then .register (register s.rm width rex o.reg.toNat)
  else if o.base = -1 then .relative 0
  else .memory (some o.base.toNat) none o.disp

section
variable {e : Enc} {rest : List U8}

theorem rexByte_value (w r b : Bool) (rest : List U8) :
    rexByte (byteOf (rexValue w r b) :: rest) = (some ⟨w,r,false,b⟩,rest) := by
  cases w <;> cases r <;> cases b <;> rfl

theorem rexValue_plain {w r b : Bool} : rexValue w r b = 0x40 ↔ w = false ∧ r = false ∧ b = false := by
  revert w r b
  decide

-- Where no REX prefix is emitted the bits it would hold are zero.
theorem bits_rexPrefix (e : Enc) : X86Code.bits e.rexPrefix = e.bits := by
  unfold Enc.rexPrefix
  split
  · rfl
  · rename_i absent
    have plain : e.rex = 0x40 := by simp_all [Enc.hasRex]
    obtain ⟨w,r,b⟩ := rexValue_plain.mp plain
    simp only [X86Code.bits,Option.getD_none,Enc.bits,w,r,b]

structure Head (b : U8) : Prop where
  opsize : b ≠ 0x66
  repne : b ≠ 0xF2
  rep : b ≠ 0xF3

theorem prefixes_head (p : Prefixes) {b : U8} (head : Head b) : X86Code.prefixes p (b :: rest) = (p,b :: rest) := by
  simp only [X86Code.prefixes,if_neg head.opsize,if_neg (not_or.mpr ⟨head.repne,head.rep⟩)]

theorem prefixes_opsize (p : Prefixes) :
    X86Code.prefixes p (byteOf 0x66 :: rest) = X86Code.prefixes ⟨true,p.repeated⟩ rest := rfl

theorem prefixes_repne (p : Prefixes) :
    X86Code.prefixes p (byteOf 0xF2 :: rest) = X86Code.prefixes ⟨p.opsize,some (byteOf 0xF2)⟩ rest := rfl

theorem prefixes_rep (p : Prefixes) :
    X86Code.prefixes p (byteOf 0xF3 :: rest) = X86Code.prefixes ⟨p.opsize,some (byteOf 0xF3)⟩ rest := rfl

theorem prefixes_legacy {b : U8} (head : Head b)
    (known : e.prefixByte = 0 ∨ e.prefixByte = 0x66 ∨ e.prefixByte = 0xF2 ∨ e.prefixByte = 0xF3) :
    X86Code.prefixes ⟨false,none⟩ (e.legacy ++ b :: rest) = (e.prefixes,b :: rest) := by
  unfold Enc.legacy Enc.prefixes
  rcases known with known | known | known | known
  all_goals cases size : e.opsize16
  all_goals simp [known,prefixes_opsize,prefixes_repne,prefixes_rep,prefixes_head _ head]

-- The opcodes that decoding tells apart from what stands before them.
def Opcode (op : List Nat) : Bool :=
  match op with
  | [op] => op < 256 ∧ op ≠ 0x0F ∧ op / 16 ≠ 4 ∧ op / 16 ≠ 0xB ∧ op ≠ 0x66 ∧ op ≠ 0xF2 ∧ op ≠ 0xF3
  | [first,op] => first = 0x0F ∧ op < 256
  | _ => false

theorem byteOf_parts {n m : Nat} (small : n < 256) (other : n ≠ m) (bounded : m < 256) : byteOf n ≠ byteOf m := by
  intro same
  have values := congrArg BitVec.toNat same
  simp only [byteOf,BitVec.toNat_ofNat] at values
  omega

theorem decodeOpcode_modrm {op : List Nat} (opcode : Opcode op) (p : Prefixes) (rex : Option Rex) :
    decodeOpcode p rex (op.map byteOf ++ rest) = decodeModrm p rex (op.map byteOf) rest := by
  unfold Opcode at opcode
  split at opcode
  · rename_i op
    obtain ⟨small,escape,_,embedded,_⟩ := of_decide_eq_true opcode
    have value : (byteOf op).toNat = op := Nat.mod_eq_of_lt small
    have other : byteOf op ≠ 0x0F := byteOf_parts small escape (by decide)
    simp only [decodeOpcode,opcodeBytes,List.map_cons,List.map_nil,List.cons_append,List.nil_append,if_neg other,
      Option.bind_eq_bind,Option.bind_some,value,if_neg embedded]
  · rename_i first op
    obtain ⟨rfl,small⟩ := of_decide_eq_true opcode
    rfl
  · cases opcode

theorem opcode_head {op : List Nat} (opcode : Opcode op) : ∃ b tail,op.map byteOf = b :: tail ∧ Head b ∧ b.toNat / 16 ≠ 4 := by
  unfold Opcode at opcode
  split at opcode
  · rename_i op
    obtain ⟨small,_,rex,_,opsize,repne,rep⟩ := of_decide_eq_true opcode
    have value : (byteOf op).toNat = op := Nat.mod_eq_of_lt small
    refine ⟨byteOf op,[],rfl,⟨byteOf_parts small opsize (by decide),byteOf_parts small repne (by decide),
      byteOf_parts small rep (by decide)⟩,?_⟩
    rwa [value]
  · rename_i first op
    obtain ⟨rfl,_⟩ := of_decide_eq_true opcode
    exact ⟨byteOf 0x0F,[byteOf op],rfl,⟨by decide,by decide,by decide⟩,by decide⟩
  · cases opcode

theorem rexValue_head (w r b : Bool) : Head (byteOf (rexValue w r b)) := by
  revert w r b
  exact fun w r b => ⟨by revert w r b; decide,by revert w r b; decide,by revert w r b; decide⟩

-- Prefixes and REX are read back as they were written.
theorem decode_prefixes {b : U8} (head : Head b) (plain : b.toNat / 16 ≠ 4)
    (known : e.prefixByte = 0 ∨ e.prefixByte = 0x66 ∨ e.prefixByte = 0xF2 ∨ e.prefixByte = 0xF3) :
    decode (e.legacy ++ (if e.hasRex then [byteOf e.rex] else []) ++ b :: rest) =
      decodeOpcode e.prefixes e.rexPrefix (b :: rest) := by
  unfold decode
  cases has : e.hasRex with
  | true =>
    have legacy := @prefixes_legacy e (b :: rest) _ (rexValue_head e.w (e.reg ≥ 8) (e.rm.any Op.extended)) known
    simp only [List.append_assoc,List.cons_append,List.nil_append,if_true,Enc.rex,legacy,rexByte_value]
    simp only [Enc.rexPrefix,has,if_true,Enc.bits]
  | false =>
    have legacy := @prefixes_legacy e rest _ head known
    have absent : rexByte (b :: rest) = (none,b :: rest) := if_neg plain
    simp only [List.append_nil,Bool.false_eq_true,if_false,legacy,absent]
    simp only [Enc.rexPrefix,has,Bool.false_eq_true,if_false]

theorem decode_head (opcode : Opcode e.op)
    (known : e.prefixByte = 0 ∨ e.prefixByte = 0x66 ∨ e.prefixByte = 0xF2 ∨ e.prefixByte = 0xF3) :
    decode (e.legacy ++ (if e.hasRex then [byteOf e.rex] else []) ++ e.op.map byteOf ++ rest) =
      decodeModrm e.prefixes e.rexPrefix (e.op.map byteOf) rest := by
  obtain ⟨b,tail,form,head,plain⟩ := opcode_head opcode
  rw [← decodeOpcode_modrm opcode,List.append_assoc,form,List.cons_append]
  exact decode_prefixes head plain known

-- The three fields of a ModRM byte.
theorem modrm_parts {mod r b : Nat} (modSmall : mod < 4) (rSmall : r < 8) (bSmall : b < 8) :
    let m := (byteOf ((mod <<< 6) ||| (r <<< 3) ||| b)).toNat
    m / 64 = mod ∧ m / 8 % 8 = r ∧ m % 8 = b := by
  have all : ∀ mod : Fin 4,∀ r b : Fin 8,
      let m := (byteOf ((mod.val <<< 6) ||| (r.val <<< 3) ||| b.val)).toNat
      m / 64 = mod ∧ m / 8 % 8 = r ∧ m % 8 = b := by decide
  exact all ⟨mod,modSmall⟩ ⟨r,rSmall⟩ ⟨b,bSmall⟩

def dispBytes (mod : Nat) (d : Int) : List U8 :=
  match mod with
  | 0 => []
  | 1 => [BitVec.ofInt 8 d]
  | _ => emit32 d

theorem emit32_eq (v : Int) : emit32 v = leBytes 4 (v % 256 ^ 4).toNat := rfl

theorem byte_eq (v : Int) : [BitVec.ofInt 8 v] = leBytes 1 (v % 256 ^ 1).toNat := by
  rw [leBytes_shifts]
  simp

theorem dispBytes_read {d : Int} (b : Nat) (low : -2147483648 ≤ d) (high : d ≤ 2147483647) :
    displacement (displacementMod d b) (dispBytes (displacementMod d b) d ++ rest) = some (d,rest) := by
  unfold displacementMod
  split
  · rename_i zero
    rw [zero.1]
    rfl
  · split
    · rename_i short
      have value : d.bmod (256 ^ 1) = d := Int.bmod_eq_of_le_mul_two (by omega) (by omega)
      simp only [displacement,dispBytes,byte_eq,field_append (leBytes_length 1 _),signed_leBytes,value]
    · have value : d.bmod (256 ^ 4) = d := Int.bmod_eq_of_le_mul_two (by omega) (by omega)
      simp only [displacement,dispBytes,emit32_eq,field_append (leBytes_length 4 _),signed_leBytes,value]

-- rsp and r12 need SIB, rbp and r13 a displacement.
theorem encodeMemory_ok {r : Nat} {base d : Int} (low : -2147483648 ≤ d) (high : d ≤ 2147483647) :
    let b := (base % 8).toNat
    let mod := displacementMod d b
    encodeMemory r base d = .ok (byteOf ((mod <<< 6) ||| (r <<< 3) ||| b) ::
      ((if b = 4 then [0x24] else []) ++ dispBytes mod d)) := by
  have range : ¬(d < -2147483648 ∨ d > 2147483647) := by omega
  intro b mod
  have small : mod = 0 ∨ mod = 1 ∨ mod = 2 := by
    simp only [mod,displacementMod]
    split_ifs <;> simp
  rcases small with form | form | form
  all_goals simp only [encodeMemory]
  all_goals simp [b,mod] at form ⊢
  all_goals simp [form,dispBytes]
  exact ⟨low,high⟩

theorem sibOperand_base {d : Int} (rex : Rex) (mod : Nat) (noIndex : rex.x = false) {bs : List U8}
    (disp : displacement mod bs = some (d,rest)) :
    sibOperand rex mod 0x24 bs = some (.memory (some (number rex.b 4)) none d,rest) := by
  simp [sibOperand,number,noIndex,disp]

theorem memoryOperand_base {b : Nat} {d : Int} (rex : Rex) (noIndex : rex.x = false) (low : -2147483648 ≤ d)
    (high : d ≤ 2147483647) :
    memoryOperand rex (displacementMod d b) b
      ((if b = 4 then [0x24] else []) ++ dispBytes (displacementMod d b) d ++ rest) =
      some (.memory (some (number rex.b b)) none d,rest) := by
  have disp := @dispBytes_read rest _ b low high
  unfold memoryOperand
  split
  · rename_i sib
    subst sib
    exact sibOperand_base rex _ noIndex disp
  · rename_i plain
    have based : ¬(b = 5 ∧ displacementMod d b = 0) := by
      rintro ⟨rfl,zero⟩
      unfold displacementMod at zero
      split_ifs at zero
      simp_all
    simp only [List.nil_append,if_neg based,disp,Option.map_some]

theorem memoryOperand_relative (rex : Rex) : memoryOperand rex 0 5 (emit32 0 ++ rest) = some (.relative 0,rest) := by
  have zero : signed (emit32 0) = 0 := by rw [emit32_eq,signed_leBytes]; rfl
  have read : field 4 (leBytes 4 ((0 : Int) % 256 ^ 4).toNat ++ rest) = _ :=
    field_append (leBytes_length 4 ((0 : Int) % 256 ^ 4).toNat)
  rw [← emit32_eq,zero] at read
  unfold memoryOperand
  rw [if_neg (by decide),if_pos (by decide),read]
  rfl

theorem number_extended {n : Int} (low : 0 ≤ n) (high : n ≤ 15) : number (n ≥ 8) (n % 8).toNat = n.toNat := by
  unfold number
  split <;> simp_all <;> omega

-- What encode writes for the operand in r/m, and what decoding reads there.
theorem encodeRm_ok {r immSize : Nat} {rm : Op} (small : r < 8) (addressable : rm.Addressable) :
    ∃ out m tail,encodeRm r rm immSize = .ok out ∧ emitted out = m :: tail ∧ m.toNat / 8 % 8 = r ∧
      ∀ (s : Shape) (width : Nat) (rex : Option Rex) (rest : List U8),(X86Code.bits rex).x = false →
        (X86Code.bits rex).b = rm.extended →
        operand s width rex (m.toNat / 64) (m.toNat % 8) (tail ++ rest) = some (operandOf s width rex rm,rest) := by
  rcases addressable.kind with kind | kind
  · obtain ⟨low,high⟩ := addressable.reg kind
    have extended : rm.extended = decide (rm.reg ≥ 8) := by simp [Op.extended,kind]
    obtain ⟨mod,reg,b⟩ := @modrm_parts 3 _ (rm.reg % 8).toNat (by decide) small (by omega)
    have shifted : (3 : Nat) <<< 6 = 0xC0 := rfl
    rw [shifted] at mod reg b
    refine ⟨_,_,[],by rw [encodeRm,if_pos kind],emitted_bytes _,reg,?_⟩
    intro s width rex rest noIndex same
    rw [operand,mod,b,if_pos rfl,operandOf,if_pos kind,same,extended,number_extended low high,List.nil_append]
  · have notReg : rm.kind ≠ .reg := by simp [kind]
    by_cases rip : rm.base = -1
    · obtain ⟨mod,reg,b⟩ := @modrm_parts 0 _ 5 (by decide) small (by decide)
      have shifted : (0 : Nat) <<< 6 = 0 := rfl
      rw [shifted,Nat.zero_or] at mod reg b
      refine ⟨_,_,emit32 0,by rw [encodeRm,if_neg notReg,if_pos rip],?_,reg,?_⟩
      · exact congrArg (_ :: ·) (emitted_bytes _)
      · intro s width rex rest noIndex same
        rw [operand,mod,b,if_neg (by decide),operandOf,if_neg notReg,if_pos rip,memoryOperand_relative]
    · obtain ⟨low,high⟩ := addressable.disp kind rip
      have base := (addressable.base kind).resolve_left rip
      have extended : rm.extended = decide (rm.base ≥ 8) := by simp [Op.extended,kind]
      have written := @encodeMemory_ok r rm.base _ low high
      have modSmall : displacementMod rm.disp (rm.base % 8).toNat < 3 := by
        unfold displacementMod
        split_ifs <;> decide
      obtain ⟨mod,reg,b⟩ := modrm_parts (Nat.lt_succ_of_lt modSmall) small (b := (rm.base % 8).toNat) (by omega)
      refine ⟨_,_,_,by rw [encodeRm,if_neg notReg,if_neg rip,written]; rfl,emitted_bytes _,reg,?_⟩
      intro s width rex rest noIndex same
      have read := @memoryOperand_base rest (rm.base % 8).toNat _ (X86Code.bits rex) noIndex low high
      rw [operand,mod,b,if_neg (by omega),operandOf,if_neg notReg,if_neg rip,read,same,extended,
        number_extended base.1 base.2]

-- The immediate sizes of the encoder.
def ImmSize (size : Nat) : Prop := size = 0 ∨ size = 1 ∨ size = 2 ∨ size = 4 ∨ size = 8

def immediateOf (size : Nat) (v : Int) : Option Int := if size = 0 then none else some (v.bmod (256 ^ size))

theorem encodeImm_eq {size : Nat} (listed : ImmSize size) (v : Int) : encodeImm size v = leBytes size (v % 256 ^ size).toNat := by
  rcases listed with rfl | rfl | rfl | rfl | rfl
  · rfl
  · exact byte_eq v
  · rw [leBytes_shifts]
    simp [encodeImm,List.range_succ]
  · rfl
  · rfl

theorem immediate_read {size : Nat} (listed : ImmSize size) (v : Int) :
    immediate size (encodeImm size v ++ rest) = some (immediateOf size v,rest) := by
  rw [encodeImm_eq listed]
  unfold immediate immediateOf
  split
  · rename_i zero
    subst zero
    rfl
  · rw [field_append (leBytes_length size _),signed_leBytes,Option.map_some]

-- A request whose opcode the decoder knows by the shape `s`.
structure Enc.Known (e : Enc) (s : Shape) : Prop where
  opcode : Opcode e.op
  legacy : e.prefixByte = 0 ∨ e.prefixByte = 0x66 ∨ e.prefixByte = 0xF2 ∨ e.prefixByte = 0xF3
  shape : X86Code.shape e.prefixes (e.op.map byteOf) (e.reg % 8).toNat = some s
  immSize : s.immediate.size (s.width.size e.prefixes e.bits) = e.immSize
  listed : ImmSize e.immSize

def Enc.instruction (e : Enc) (s : Shape) (o : Op) : Instruction :=
  let width := s.width.size e.prefixes e.bits
  ⟨selects s e.prefixes,e.op.map byteOf,width,fieldOf s width e.rexPrefix (e.reg % 8).toNat,
    operandOf s width e.rexPrefix o,immediateOf e.immSize e.imm⟩

def Enc.Conflict (e : Enc) (o : Op) : Prop := (o.kind = .reg ∧ o.high8 ∨ e.regHigh8) ∧ e.hasRex

theorem encode_conflict {o : Op} (rm : e.rm = some o) (conflict : e.Conflict o) : encode e = .error .highByteWithRex := by
  obtain ⟨high,rex⟩ := conflict
  unfold encode
  rcases high with high | high
  · simp [rm,high,rex]
    rfl
  · by_cases both : o.kind = .reg ∧ o.high8
    · simp [rm,both,rex]
      rfl
    · simp [rm,both,high,rex]
      rfl

theorem decode_encode {s : Shape} {o : Op} (known : e.Known s) (rm : e.rm = some o) (addressable : o.Addressable)
    (clear : ¬e.Conflict o) :
    ∃ out,encode e = .ok out ∧ ∀ rest,decode (emitted out ++ rest) = some (e.instruction s o,rest) := by
  obtain ⟨out,m,tail,written,form,reg,read⟩ := @encodeRm_ok (e.reg % 8).toNat e.immSize _ (by omega) addressable
  have high : ¬((o.kind = .reg ∧ o.high8) ∧ e.hasRex) := fun both => clear ⟨.inl both.1,both.2⟩
  have field : ¬(e.regHigh8 ∧ e.hasRex) := fun both => clear ⟨.inr both.1,both.2⟩
  refine ⟨bytes (e.legacy ++ (if e.hasRex then [byteOf e.rex] else []) ++ e.op.map byteOf) ++ out ++
    bytes (encodeImm e.immSize e.imm),?_,?_⟩
  · simp [encode,rm,high,field,written]
  · intro rest
    have bits := bits_rexPrefix e
    have noIndex : (X86Code.bits e.rexPrefix).x = false := by rw [bits]; rfl
    have extended : (X86Code.bits e.rexPrefix).b = o.extended := by rw [bits,Enc.bits,rm]; rfl
    have head := @decode_head _ (emitted out ++ (encodeImm e.immSize e.imm ++ rest)) known.opcode known.legacy
    have operands := fun width => read s width e.rexPrefix (encodeImm e.immSize e.imm ++ rest) noIndex extended
    simp only [emitted_append,emitted_bytes,List.append_assoc] at head ⊢
    rw [head,form,List.cons_append,decodeModrm]
    simp only [reg,known.shape,Option.bind_eq_bind,Option.bind_some,bits,operands,known.immSize,
      immediate_read known.listed]
    rfl

end

end SandboxStack.Asm
