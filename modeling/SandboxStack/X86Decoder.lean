import SandboxStack.LittleEndian

namespace SandboxStack.X86Code
open LittleEndian

-- `high` stands for ah, ch, dh and bh, which have the numbers 4 to 7.
inductive Register where
  | general (size number : Nat)
  | high (number : Nat)
  | vector (number : Nat)
  deriving DecidableEq, Repr

inductive Operand where
  | register (r : Register)
  | memory (base : Option Nat) (index : Option (Nat × Nat)) (disp : Int)
  | relative (disp : Int)
  deriving DecidableEq, Repr

inductive Field where
  | digit (n : Nat)
  | register (r : Register)
  deriving DecidableEq, Repr

structure Instruction where
  mandatory : Option U8
  opcode : List U8
  width : Nat
  field : Field
  operand : Operand
  immediate : Option Int
  deriving DecidableEq, Repr

-- What the bytes after an opcode stand for.
inductive Class where
  | sized
  | fixed (size : Nat)
  | vector
  deriving DecidableEq, Repr

inductive Immediate where
  | none | byte | full
  deriving DecidableEq, Repr

inductive Width where
  | byte | word | quad | scalar
  deriving DecidableEq, Repr

-- `reg` is none where the ModRM.reg field extends the opcode.
structure Shape where
  width : Width
  reg : Option Class
  rm : Class
  immediate : Immediate
  deriving DecidableEq, Repr

def Width.ofBit (op : Nat) : Width := if op % 2 = 0 then .byte else .word

def oneByte (op digit : Nat) : Option Shape :=
  if op < 0x40 ∧ op % 8 < 4 then some ⟨.ofBit op,some .sized,.sized,.none⟩
  else
    match op with
    | 0x63 => some ⟨.word,some .sized,.fixed 4,.none⟩
    | 0x80 => some ⟨.byte,none,.sized,.full⟩
    | 0x81 => some ⟨.word,none,.sized,.full⟩
    | 0x83 => some ⟨.word,none,.sized,.byte⟩
    | 0x84 | 0x85 | 0x88 | 0x89 | 0x8A | 0x8B => some ⟨.ofBit op,some .sized,.sized,.none⟩
    | 0x8D => some ⟨.word,some .sized,.sized,.none⟩
    | 0xC0 | 0xC1 => some ⟨.ofBit op,none,.sized,.byte⟩
    | 0xC6 | 0xC7 => if digit = 0 then some ⟨.ofBit op,none,.sized,.full⟩ else none
    | 0xD0 | 0xD1 | 0xD2 | 0xD3 => some ⟨.ofBit op,none,.sized,.none⟩
    | 0xF6 | 0xF7 => some ⟨.ofBit op,none,.sized,if digit < 2 then .full else .none⟩
    | 0xFE => if digit < 2 then some ⟨.byte,none,.sized,.none⟩ else none
    | 0xFF =>
      if digit < 2 then some ⟨.word,none,.sized,.none⟩
      else if digit = 2 ∨ digit = 4 ∨ digit = 6 then some ⟨.quad,none,.sized,.none⟩
      else none
    | _ => none

def scalar (reg rm : Class) : Option Shape := some ⟨.scalar,some reg,rm,.none⟩

def twoByte (mandatory : Option U8) (op : Nat) : Option Shape :=
  if 0x90 ≤ op ∧ op < 0xA0 then some ⟨.byte,none,.sized,.none⟩
  else
    match op with
    | 0xAF => some ⟨.word,some .sized,.sized,.none⟩
    | 0xB6 | 0xBE => some ⟨.word,some .sized,.fixed 1,.none⟩
    | 0xB7 | 0xBF => some ⟨.word,some .sized,.fixed 2,.none⟩
    | 0x10 | 0x11 | 0x58 | 0x59 | 0x5A | 0x5C | 0x5E => scalar .vector .vector
    | 0x2A => if mandatory = some 0xF2 ∨ mandatory = some 0xF3 then scalar .vector .sized else none
    | 0x2C => if mandatory = some 0xF2 ∨ mandatory = some 0xF3 then scalar .sized .vector else none
    | 0x2E | 0x57 => if mandatory = none ∨ mandatory = some 0x66 then scalar .vector .vector else none
    | 0x6E => if mandatory = some 0x66 then scalar .vector .sized else none
    | 0x7E =>
      if mandatory = some 0xF3 then scalar .vector .vector
      else if mandatory = some 0x66 then scalar .vector .sized
      else none
    | 0xEF => if mandatory = some 0x66 then scalar .vector .vector else none
    | _ => none

structure Prefixes where
  opsize : Bool
  repeated : Option U8
  deriving DecidableEq, Repr

def prefixes (p : Prefixes) : List U8 → Prefixes × List U8
  | [] => (p,[])
  | b :: rest =>
    if b = 0x66 then prefixes ⟨true,p.repeated⟩ rest
    else if b = 0xF2 ∨ b = 0xF3 then prefixes ⟨p.opsize,some b⟩ rest
    else (p,b :: rest)

def Prefixes.mandatory (p : Prefixes) : Option U8 :=
  match p.repeated with
  | some b => some b
  | none => if p.opsize then some 0x66 else none

structure Rex where
  w : Bool
  r : Bool
  x : Bool
  b : Bool
  deriving DecidableEq, Repr

def rexByte : List U8 → Option Rex × List U8
  | [] => (none,[])
  | b :: rest =>
    if b.toNat / 16 = 4 then (some ⟨b.getLsbD 3,b.getLsbD 2,b.getLsbD 1,b.getLsbD 0⟩,rest)
    else (none,b :: rest)

-- Without REX the three bits that it holds are zero.
def bits (rex : Option Rex) : Rex := rex.getD ⟨false,false,false,false⟩

def number (extended : Bool) (low : Nat) : Nat := if extended then low + 8 else low

def register (cls : Class) (width : Nat) (rex : Option Rex) (n : Nat) : Register :=
  let size := match cls with
    | .fixed size => size
    | _ => width
  if cls = .vector then .vector n
  else if size = 1 ∧ rex = none ∧ 4 ≤ n then .high n
  else .general size n

-- The value of a field that is sign-extended.
def signed (bytes : List U8) : Int := Int.bmod (leValue bytes) (256 ^ bytes.length)

def field (n : Nat) (bytes : List U8) : Option (Int × List U8) :=
  if n ≤ bytes.length then some (signed (bytes.take n),bytes.drop n) else none

def displacement (mod : Nat) (bytes : List U8) : Option (Int × List U8) :=
  match mod with
  | 0 => some (0,bytes)
  | 1 => field 1 bytes
  | _ => field 4 bytes

def sibOperand (rex : Rex) (mod sib : Nat) (bytes : List U8) : Option (Operand × List U8) :=
  let n := number rex.x (sib / 8 % 8)
  let index := if n = 4 then none else some (n,2 ^ (sib / 64))
  if sib % 8 = 5 ∧ mod = 0 then (field 4 bytes).map fun d => (.memory none index d.1,d.2)
  else (displacement mod bytes).map fun d => (.memory (some (number rex.b (sib % 8))) index d.1,d.2)

def memoryOperand (rex : Rex) (mod rm : Nat) (bytes : List U8) : Option (Operand × List U8) :=
  if rm = 4 then
    match bytes with
    | [] => none
    | sib :: rest => sibOperand rex mod sib.toNat rest
  else if rm = 5 ∧ mod = 0 then (field 4 bytes).map fun d => (.relative d.1,d.2)
  else (displacement mod bytes).map fun d => (.memory (some (number rex.b rm)) none d.1,d.2)

def Width.size (w : Width) (p : Prefixes) (rex : Rex) : Nat :=
  match w with
  | .byte => 1
  | .quad => 8
  | .scalar => if rex.w then 8 else 4
  | .word => if rex.w then 8 else if p.opsize then 2 else 4

def Immediate.size (i : Immediate) (width : Nat) : Nat :=
  match i with
  | .none => 0
  | .byte => 1
  | .full => min width 4

def immediate (n : Nat) (bytes : List U8) : Option (Option Int × List U8) :=
  if n = 0 then some (none,bytes) else (field n bytes).map fun v => (some v.1,v.2)

def shape (p : Prefixes) (opcode : List U8) (digit : Nat) : Option Shape :=
  match opcode with
  | [op] => oneByte op.toNat digit
  | [_,op] => twoByte p.mandatory op.toNat
  | _ => none

-- The prefixes that select the instruction are those of the two-byte scalar
-- opcodes.
def selects (s : Shape) (p : Prefixes) : Option U8 := if s.width = .scalar then p.mandatory else none

def operand (s : Shape) (width : Nat) (rex : Option Rex) (mod rm : Nat) (bytes : List U8) :
    Option (Operand × List U8) :=
  if mod = 3 then some (.register (register s.rm width rex (number (bits rex).b rm)),bytes)
  else memoryOperand (bits rex) mod rm bytes

def fieldOf (s : Shape) (width : Nat) (rex : Option Rex) (reg : Nat) : Field :=
  match s.reg with
  | none => .digit reg
  | some cls => .register (register cls width rex (number (bits rex).r reg))

def decodeModrm (p : Prefixes) (rex : Option Rex) (opcode : List U8) : List U8 → Option (Instruction × List U8)
  | [] => none
  | modrm :: bytes => do
    let reg := modrm.toNat / 8 % 8
    let s ← shape p opcode reg
    let width := s.width.size p (bits rex)
    let (o,bytes) ← operand s width rex (modrm.toNat / 64) (modrm.toNat % 8) bytes
    let (i,bytes) ← immediate (s.immediate.size width) bytes
    return (⟨selects s p,opcode,width,fieldOf s width rex reg,o,i⟩,bytes)

-- B0 to BF hold the register in the opcode, and an immediate of full width.
def decodeEmbedded (p : Prefixes) (rex : Option Rex) (op : U8) (bytes : List U8) : Option (Instruction × List U8) :=
  let w : Width := if op.toNat < 0xB8 then .byte else .word
  let width := w.size p (bits rex)
  let r := register .sized width rex (number (bits rex).b (op.toNat % 8))
  (field width bytes).map fun v => (⟨none,[op],width,.digit 0,.register r,some v.1⟩,v.2)

def opcodeBytes : List U8 → Option (List U8 × List U8)
  | [] => none
  | b :: rest =>
    if b = 0x0F then
      match rest with
      | [] => none
      | op :: rest => some ([0x0F,op],rest)
    else some ([b],rest)

def decodeOpcode (p : Prefixes) (rex : Option Rex) (bytes : List U8) : Option (Instruction × List U8) := do
  let (opcode,bytes) ← opcodeBytes bytes
  match opcode with
  | [op] => if op.toNat / 16 = 0xB then decodeEmbedded p rex op bytes else decodeModrm p rex opcode bytes
  | _ => decodeModrm p rex opcode bytes

def decode (bytes : List U8) : Option (Instruction × List U8) :=
  let p := prefixes ⟨false,none⟩ bytes
  let r := rexByte p.2
  decodeOpcode p.1 r.1 r.2

section
variable {n : Nat} {bs rest : List U8}

theorem field_append (length : bs.length = n) : field n (bs ++ rest) = some (signed bs,rest) := by
  subst length
  simp [field]

theorem signed_leBytes (n : Nat) (v : Int) : signed (leBytes n (v % 256 ^ n).toNat) = v.bmod (256 ^ n) := by
  have positive : (0 : Int) < 256 ^ n := by positivity
  have bound := Int.emod_lt_of_pos v positive
  have low := Int.emod_nonneg v positive.ne'
  have small : (v % 256 ^ n).toNat < 256 ^ n := by
    rw [Int.toNat_lt low]
    exact_mod_cast bound
  have same : (256 : Int) ^ n = ((256 ^ n : Nat) : Int) := by norm_cast
  rw [signed,leBytes_length,leValue_leBytes,Nat.mod_eq_of_lt small,Int.toNat_of_nonneg low,same,Int.emod_bmod]

-- The bytes of a number, one shift after another.
theorem leBytes_shifts (n : Nat) (v : Int) :
    leBytes n (v % 256 ^ n).toNat = (List.range n).map fun k : Nat => BitVec.ofInt 8 (v >>> (8 * k : Nat)) := by
  induction n generalizing v with
  | zero => rfl
  | succ n ih =>
    have positive : (0 : Int) < 256 ^ n := by positivity
    have parts : v % 256 ^ (n + 1) = v % 256 + 256 * (v / 256 % 256 ^ n) := by
      have nested := Int.ediv_ediv_of_nonneg (x := v) (y := 256) (z := 256 ^ n) (by norm_num)
      have whole := Int.emod_def v (256 ^ (n + 1))
      have high := Int.emod_def (v / 256) (256 ^ n)
      rw [pow_succ',← nested] at whole
      rw [pow_succ',whole,high,Int.emod_def v 256]
      ring
    have low := Int.emod_nonneg (v / 256) positive.ne'
    have head : BitVec.ofNat 8 (v % 256 ^ (n + 1)).toNat = BitVec.ofInt 8 v := by
      apply BitVec.eq_of_toNat_eq
      simp only [BitVec.toNat_ofNat,BitVec.toNat_ofInt]
      omega
    have tail : (v % 256 ^ (n + 1)).toNat / 256 = (v / 256 % 256 ^ n).toNat := by omega
    have shifted : v >>> (8 : Nat) = v / (256 : Int) := Int.shiftRight_eq_div_pow v 8
    rw [leBytes,head,tail,ih,List.range_succ_eq_map,List.map_cons,List.map_map,← shifted]
    refine congrArg₂ _ (by simp) (List.map_congr_left fun k _ => ?_)
    rw [Function.comp_apply,← Int.shiftRight_add,Nat.mul_succ,Nat.add_comm]

end

end SandboxStack.X86Code
