import SandboxStack.LittleEndian

namespace SandboxStack.Asm
open LittleEndian

-- The values of the C types int, long and uint64_t, and the conversions to them.
def int32 (x : Int) : Int := (x + 2147483648) % 4294967296 - 2147483648
def int64 (x : Int) : Int := (x + 9223372036854775808) % 18446744073709551616 - 9223372036854775808
def uint64 (x : Int) : Int := x % 18446744073709551616

-- int align_to(int n, int align)
def alignTo (n align : Int) : Int :=
  int32 ((int32 (int32 (n + align) - 1)).tdiv align * align)

inductive AsmError where
  | badNumber (v : Int)
  | alignmentNotPowerOfTwo
  | dataInBss
  | instructionInBss
  | duplicateSymbol (name : String)
  | capacityOverflow
  deriving DecidableEq, Repr

-- `len` is the number of bytes held.
structure Sec where
  data : List U8
  cap : Int

def Sec.len (s : Sec) : Nat := s.data.length

-- Doubling the capacity 2^30 overflows int; no allocation answers the size
-- that then reaches realloc.
def secU8 (s : Sec) (v : U8) : Except AsmError Sec :=
  if (s.len : Int) = s.cap then
    let cap := if s.cap ≠ 0 then s.cap * 2 else 65536
    if cap > 2147483647 then .error .capacityOverflow else .ok ⟨s.data ++ [v],cap⟩
  else .ok {s with data := s.data ++ [v]}

inductive Section where
  | text | data | bss
  deriving DecidableEq, Repr

structure Sym where
  sec : Section
  off : Int
  deriving DecidableEq, Repr

structure Fixup where
  sec : Section
  off : Nat
  name : String
  addend : Int
  abs64 : Bool
  deriving DecidableEq, Repr

-- `current` stands for the pair of cur and cur_bss: in .bss, cur points at data.
structure AsmState where
  text : Sec
  data : Sec
  bssLen : Int
  current : Section
  syms : List (String × Sym)
  fixups : List Fixup
  numericCount : Nat → Nat

def initial : AsmState := ⟨⟨[],0⟩,⟨[],0⟩,0,.text,[],[],fun _ => 0⟩

def AsmState.cur (s : AsmState) : Sec :=
  match s.current with
  | .text => s.text
  | .data | .bss => s.data

def AsmState.setCur (s : AsmState) (sec : Sec) : AsmState :=
  match s.current with
  | .text => {s with text := sec}
  | .data | .bss => {s with data := sec}

def emit8 (s : AsmState) (v : U8) : Except AsmError AsmState := do
  let sec ← secU8 s.cur v
  return s.setCur sec

def emitAll (s : AsmState) : List U8 → Except AsmError AsmState
  | [] => .ok s
  | v :: rest => do
    let s ← emit8 s v
    emitAll s rest

def emit64 (s : AsmState) (v : Nat) : Except AsmError AsmState := emitAll s (leBytes 8 v)

def addFixup (s : AsmState) (name : String) (addend : Int) (abs64 : Bool) : AsmState :=
  {s with fixups := s.fixups ++ [⟨if s.current = .text then .text else .data,s.cur.len,name,addend,abs64⟩]}

-- The symbol a label defines where the assembler stands.
def AsmState.here (s : AsmState) : Sym :=
  ⟨s.current,if s.current = .bss then s.bssLen else s.cur.len⟩

def defineSym (s : AsmState) (name : String) : Except AsmError AsmState :=
  if (s.syms.lookup name).isSome then .error (.duplicateSymbol name)
  else .ok {s with syms := (name,s.here) :: s.syms}

def numericName (n k : Nat) : String := ".num" ++ toString n ++ "." ++ toString k

def num (v lo hi : Int) : Except AsmError Int := if v < lo ∨ v > hi then .error (.badNumber v) else .ok v

-- What an instruction that is accepted does: it emits bytes, and notes the
-- fixup of a symbol before the four bytes it stands in.
inductive Emission where
  | byte (v : U8)
  | fixup (name : String) (addend : Int)
  deriving DecidableEq, Repr

def instruction (s : AsmState) : List Emission → Except AsmError AsmState
  | [] => .ok s
  | .byte v :: rest => do
    let s ← emit8 s v
    instruction s rest
  | .fixup name addend :: rest => instruction (addFixup s name addend false) rest

-- A line of the input as assemble_line takes it apart.
inductive Line where
  | text | data | bss
  | label (name : String)
  | numericLabel (n : Nat)
  | align (a : Int)
  | byte (v : Int)
  | zero (v : Int)
  | quad (v : Nat)
  | quadSymbol (name : String) (addend : Option Int)
  | instruction (emissions : List Emission)
  deriving DecidableEq, Repr

-- while (cur->len % a) emit8(cur == &text ? 0x90 : 0);
def padTo (a : Nat) : Nat → AsmState → Except AsmError AsmState
  | 0,s => .ok s
  | k+1,s =>
    if s.cur.len % a = 0 then .ok s
    else do
      let s ← emit8 s (if s.current = .text then 0x90 else 0)
      padTo a k s

def assembleLine (s : AsmState) : Line → Except AsmError AsmState
  | .text => .ok {s with current := .text}
  | .data => .ok {s with current := .data}
  | .bss => .ok {s with current := .bss}
  | .label name => defineSym s name
  | .numericLabel n =>
    let s := {s with numericCount := Function.update s.numericCount n (s.numericCount n + 1)}
    defineSym s (numericName n (s.numericCount n))
  | .align v => do
    let a ← num v 1 4096
    if a.toNat &&& (a.toNat - 1) ≠ 0 then .error .alignmentNotPowerOfTwo
    else if s.current = .bss then .ok {s with bssLen := alignTo (int32 s.bssLen) (int32 a)}
    else padTo a.toNat a.toNat s
  | .byte v =>
    if s.current = .bss then .error .dataInBss
    else do
      let v ← num v (-128) 255
      emit8 s (BitVec.ofInt 8 v)
  | .zero v => do
    let v ← num v 0 2147483648
    if s.current = .bss then .ok {s with bssLen := int64 (s.bssLen + v)}
    else emitAll s (List.replicate v.toNat 0)
  | .quad v => if s.current = .bss then .error .dataInBss else emit64 s v
  | .quadSymbol name addend =>
    if s.current = .bss then .error .dataInBss
    else
      match addend with
      | none => emit64 (addFixup s name 0 true) 0
      | some plus => do
        let addend ← num plus (-1099511627776) 1099511627776
        emit64 (addFixup s name addend true) 0
  | .instruction emissions =>
    if s.current = .bss then .error .instructionInBss else instruction s emissions

-- The line loop of assemble_elf. What it refuses afterwards, a fixup of an
-- undefined symbol and a program without _start in .text, is left out.
def assembleLines (s : AsmState) : List Line → Except AsmError AsmState
  | [] => .ok s
  | line :: rest => do
    let s ← assembleLine s line
    assembleLines s rest

-- The layout part of assemble_elf: the section addresses, and the file and
-- memory sizes of the data segment.
def base : Int := 0x400000
def page : Int := 0x1000

structure Layout where
  textAddr : Int
  dataAddr : Int
  bssAddr : Int
  dataFileSize : Int
  dataMemSize : Int
  deriving DecidableEq, Repr

def layout (s : AsmState) : Layout :=
  let textOff := page
  let dataOff := uint64 (alignTo (int32 (uint64 (textOff + s.text.len))) page)
  let dataAddr := uint64 (base + dataOff)
  let bssAddr := uint64 (alignTo (int32 (uint64 (dataAddr + s.data.len))) 16)
  ⟨uint64 (base + textOff),dataAddr,bssAddr,s.data.len,uint64 (uint64 (bssAddr - dataAddr) + s.bssLen)⟩

def Layout.secAddr (l : Layout) : Section → Int
  | .text => l.textAddr
  | .data => l.dataAddr
  | .bss => l.bssAddr

def Layout.symAddr (l : Layout) (sym : Sym) : Int := uint64 (l.secAddr sym.sec + sym.off)

end SandboxStack.Asm
