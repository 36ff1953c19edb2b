import SandboxStack.AssemblerSections

namespace SandboxStack.Asm
open LittleEndian

inductive EncodeError where
  | highByteWithRex
  | displacementOutOfRange
  | operandSizeMismatch
  | cannotDetermineOperandSize
  | immediateDoesNotFit (v : Int) (bits : Nat)
  | badAluDestination
  | unsupportedAluOperands
  | useMovqForXmm
  | gotpcrelNeeds64Bit
  | unsupportedMovOperands
  | badImmediate
  | unknownInstruction
  deriving DecidableEq, Repr

inductive OpKind where
  | none | reg | imm | mem | label
  deriving DecidableEq, Repr

-- `base` is -1 for rip, and so is the number of the register that stands for it.
structure Op where
  kind : OpKind
  reg : Int
  size : Nat
  high8 : Bool
  xmm : Bool
  imm : Int
  base : Int
  disp : Int
  sym : String
  gotpcrel : Bool
  deriving DecidableEq, Repr

def Op.empty : Op := ⟨.none,0,0,false,false,0,0,0,"",false⟩

-- The prefix byte is 0 where there is none.
structure Enc where
  prefixByte : Nat
  w : Bool
  needRex : Bool
  op : List Nat
  reg : Int
  regHigh8 : Bool
  rm : Option Op
  immSize : Nat
  imm : Int
  opsize16 : Bool
  deriving DecidableEq, Repr

def Enc.empty : Enc := ⟨0,false,false,[],0,false,none,0,0,false⟩

def bytes (bs : List U8) : List Emission := bs.map .byte

def byteOf (n : Nat) : U8 := BitVec.ofNat 8 n

def emit32 (v : Int) : List U8 := leBytes 4 (v % 4294967296).toNat

-- The register or the base that needs the bit B of REX.
def Op.extended (o : Op) : Bool := (o.kind = .reg ∧ o.reg ≥ 8) ∨ (o.kind = .mem ∧ o.base ≥ 8)

def rexValue (w r b : Bool) : Nat :=
  0x40 ||| (if w then 8 else 0) ||| (if r then 4 else 0) ||| (if b then 1 else 0)

def Enc.rex (e : Enc) : Nat := rexValue e.w (e.reg ≥ 8) (e.rm.any Op.extended)

def Enc.hasRex (e : Enc) : Bool := e.rex ≠ 0x40 ∨ e.needRex

def displacementMod (d : Int) (b : Nat) : Nat := if d = 0 ∧ b ≠ 5 then 0 else if -128 ≤ d ∧ d ≤ 127 then 1 else 2

def encodeMemory (r : Nat) (base d : Int) : Except EncodeError (List U8) :=
  let b := (base % 8).toNat
  let mod := displacementMod d b
  let head := byteOf ((mod <<< 6) ||| (r <<< 3) ||| b) :: (if b = 4 then [0x24] else [])
  if mod = 1 then .ok (head ++ [BitVec.ofInt 8 d])
  else if mod = 2 then
    if d < -2147483648 ∨ d > 2147483647 then .error .displacementOutOfRange else .ok (head ++ emit32 d)
  else .ok head

def encodeRm (r : Nat) (rm : Op) (immSize : Nat) : Except EncodeError (List Emission) :=
  if rm.kind = .reg then .ok (bytes [byteOf (0xC0 ||| (r <<< 3) ||| (rm.reg % 8).toNat)])
  else if rm.base = -1 then
    .ok (.byte (byteOf ((r <<< 3) ||| 5)) :: .fixup rm.sym (int64 (rm.disp - 4 - immSize)) :: bytes (emit32 0))
  else (encodeMemory r rm.base rm.disp).map bytes

def encodeImm (size : Nat) (imm : Int) : List U8 :=
  match size with
  | 1 => [BitVec.ofInt 8 imm]
  | 2 => [BitVec.ofInt 8 imm,BitVec.ofInt 8 (imm >>> (8 : Nat))]
  | 4 => emit32 imm
  | 8 => leBytes 8 (uint64 imm).toNat
  | _ => []

def Enc.legacy (e : Enc) : List U8 :=
  (if e.opsize16 then [byteOf 0x66] else []) ++ (if e.prefixByte ≠ 0 then [byteOf e.prefixByte] else [])

def encode (e : Enc) : Except EncodeError (List Emission) := do
  if e.rm.any (fun o => o.kind = .reg ∧ o.high8) ∧ e.hasRex then throw .highByteWithRex
  if e.regHigh8 ∧ e.hasRex then throw .highByteWithRex
  let head := e.legacy ++ (if e.hasRex then [byteOf e.rex] else []) ++ e.op.map byteOf
  let rm ← match e.rm with
    | none => pure []
    | some o => encodeRm (e.reg % 8).toNat o e.immSize
  return bytes head ++ rm ++ bytes (encodeImm e.immSize e.imm)

def fits8 (v : Int) : Bool := v ≥ -128 ∧ v ≤ 127
def fits32 (v : Int) : Bool := v ≥ -2147483648 ∧ v ≤ 2147483647

def opSize (a b : Option Op) (suffix : Option Char) : Except EncodeError Nat :=
  match a.filter fun o => o.kind = .reg ∧ ¬o.xmm,b.filter fun o => o.kind = .reg ∧ ¬o.xmm with
  | some o,_ => .ok o.size
  | none,some o => .ok o.size
  | none,none =>
    match suffix with
    | some 'b' => .ok 1
    | some 'w' => .ok 2
    | some 'l' => .ok 4
    | some 'q' => .ok 8
    | _ => .error .cannotDetermineOperandSize

def setSize (e : Enc) (size op8 op : Nat) : Enc :=
  {e with op := [if size = 1 then op8 else op],w := size = 8,opsize16 := size = 2}

def needsRex (o : Op) : Bool := o.kind = .reg ∧ o.size = 1 ∧ ¬o.high8 ∧ o.reg ≥ 4 ∧ o.reg ≤ 7

def needRexFor (e : Enc) (o : Op) : Enc := if needsRex o then {e with needRex := true} else e

def setReg (e : Enc) (o : Op) : Enc := needRexFor {e with reg := o.reg,regHigh8 := o.high8} o

def sameWidth (a b : Op) : Except EncodeError Unit :=
  if a.kind = .reg ∧ b.kind = .reg ∧ ¬a.xmm ∧ ¬b.xmm ∧ a.size ≠ b.size then .error .operandSizeMismatch else .ok ()

def checkImm (v : Int) (fieldBits : Nat) (signExtendedTo64 : Bool) : Except EncodeError Int :=
  let lo : Int := -(2 ^ (fieldBits - 1))
  let hi : Int := if signExtendedTo64 then 2 ^ (fieldBits - 1) - 1 else 2 ^ fieldBits - 1
  if v < lo ∨ v > hi then .error (.immediateDoesNotFit v fieldBits) else .ok v

-- An unsigned bit pattern becomes the signed value of the field.
def signedField (size : Nat) (v : Int) : Int :=
  let v := if size = 4 ∧ v > 2147483647 then v - 4294967296 else v
  if size = 2 ∧ v > 32767 then v - 65536 else v

def aluImm (n size : Nat) (imm : Int) (dst : Op) : Except EncodeError Enc := do
  let v ← checkImm imm (if size = 8 then 32 else size * 8) (size = 8)
  let v := signedField size v
  let (op,immSize) := if size = 1 then (0x80,1) else if fits8 v then (0x83,1) else (0x81,if size = 2 then 2 else 4)
  return needRexFor {Enc.empty with
    op := [op],reg := n,rm := some dst,immSize := immSize,imm := v,w := size = 8,opsize16 := size = 2} dst

-- The group-1 instructions have the numbers add 0, or 1, and 4, sub 5, xor 6
-- and cmp 7.
def alu (n : Nat) (src dst : Op) (suffix : Option Char) : Except EncodeError (List Emission) := do
  sameWidth src dst
  let size ← opSize (some dst) (some src) suffix
  if src.kind = .imm then
    if dst.kind ≠ .reg ∧ dst.kind ≠ .mem then throw .badAluDestination
    encode (← aluImm n size src.imm dst)
  else if src.kind = .reg ∧ (dst.kind = .reg ∨ dst.kind = .mem) then
    encode (needRexFor {setReg (setSize .empty size (n * 8) (n * 8 + 1)) src with rm := some dst} dst)
  else if src.kind = .mem ∧ dst.kind = .reg then
    encode {setReg (setSize .empty size (n * 8 + 2) (n * 8 + 3)) dst with rm := some src}
  else throw .unsupportedAluOperands

-- `mov` of a constant to a register, the wide form with its own opcode.
def movWide (imm : Int) (dst : Op) : List Emission :=
  bytes ([byteOf (0x48 ||| (if dst.reg ≥ 8 then 1 else 0)),byteOf (0xB8 + (dst.reg % 8).toNat)] ++
    leBytes 8 (uint64 imm).toNat)

def narrowRex (size : Nat) (dst : Op) : Bool :=
  rexValue false false (dst.reg ≥ 8) ≠ 0x40 ∨ (size = 1 ∧ dst.reg ≥ 4 ∧ dst.reg ≤ 7 ∧ ¬dst.high8)

def movNarrow (size : Nat) (v : Int) (dst : Op) : Except EncodeError (List Emission) :=
  if narrowRex size dst ∧ dst.high8 then .error .highByteWithRex
  else .ok (bytes ((if size = 2 then [byteOf 0x66] else []) ++
    (if narrowRex size dst then [byteOf (rexValue false false (dst.reg ≥ 8))] else []) ++
    [byteOf ((if size = 1 then 0xB0 else 0xB8) + (dst.reg % 8).toNat)] ++
    (List.range size).map fun k : Nat => BitVec.ofInt 8 (v >>> (8 * k : Nat))))

def movImm (size : Nat) (imm : Int) (dst : Op) : Except EncodeError (List Emission) := do
  if dst.kind = .reg then
    if size = 8 then
      if fits32 imm then
        encode {Enc.empty with w := true,op := [0xC7],rm := some dst,immSize := 4,imm := imm}
      else return movWide imm dst
    else movNarrow size (← checkImm imm (size * 8) false) dst
  else
    let v ← checkImm imm (if size = 8 then 32 else size * 8) (size = 8)
    encode {setSize .empty size 0xC6 0xC7 with rm := some dst,immSize := if size = 8 then 4 else size,imm := v}

def mov (src dst : Op) (suffix : Option Char) : Except EncodeError (List Emission) := do
  if (src.kind = .reg ∧ src.xmm) ∨ (dst.kind = .reg ∧ dst.xmm) then throw .useMovqForXmm
  sameWidth src dst
  let size ← opSize (some dst) (some src) suffix
  if src.kind = .imm ∧ (dst.kind = .reg ∨ dst.kind = .mem) then movImm size src.imm dst
  else if src.kind = .reg ∧ (dst.kind = .reg ∨ dst.kind = .mem) then
    encode (needRexFor {setReg (setSize .empty size 0x88 0x89) src with rm := some dst} dst)
  else if src.kind = .mem ∧ dst.kind = .reg then
    if src.gotpcrel then
      if size ≠ 8 then throw .gotpcrelNeeds64Bit
      encode {Enc.empty with op := [0x8D],w := true,reg := dst.reg,rm := some src}
    else encode {setReg (setSize .empty size 0x8A 0x8B) dst with rm := some src}
  else throw .unsupportedMovOperands

end SandboxStack.Asm
