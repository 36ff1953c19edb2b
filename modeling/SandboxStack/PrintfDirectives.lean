import SandboxStack.Printf

namespace SandboxStack.Printf
open NumberText Stdio

-- The conversion specifications of C99, for the conversions d i u x X c s %.
inductive Flag where
  | minus | plus | space | alternative | zero
  deriving DecidableEq, Repr

inductive Length where
  | plain | hh | h | l | ll | j | z | t
  deriving DecidableEq, Repr

inductive Kind where
  | d | i | u | x | X | c | s | percent
  deriving DecidableEq, Repr

-- A field width or a precision; the digits of a precision may be none at all.
inductive Amount where
  | absent
  | star
  | digits (ds : List (Fin 10))
  deriving DecidableEq, Repr

structure Directive where
  flags : List Flag
  width : Amount
  precision : Amount
  length : Length
  kind : Kind
  deriving DecidableEq, Repr

def Flag.byte : Flag → Byte
  | .minus => 45 | .plus => 43 | .space => 32 | .alternative => 35 | .zero => 48

def Length.bytes : Length → List Byte
  | .plain => [] | .hh => [104,104] | .h => [104] | .l => [108] | .ll => [108,108] | .j => [106] | .z => [122] | .t => [116]

def Kind.byte : Kind → Byte
  | .d => 100 | .i => 105 | .u => 117 | .x => 120 | .X => 88 | .c => 99 | .s => 115 | .percent => 37

def digitByte (d : Fin 10) : Byte := BitVec.ofNat 8 (48 + d.val)

def Amount.bytes : Amount → List Byte
  | .absent => [] | .star => [42] | .digits ds => ds.map digitByte

def Amount.value : Amount → Nat
  | .absent | .star => 0
  | .digits ds => ds.foldl (fun n d => n * 10 + d.val) 0

def Amount.pointed (precision : Amount) : List Byte := if precision = .absent then [] else 46 :: precision.bytes

-- What follows the %.
def Directive.bytes (d : Directive) : List Byte :=
  d.flags.map Flag.byte ++ d.width.bytes ++ d.precision.pointed ++ d.length.bytes ++ [d.kind.byte]

def Kind.signed : Kind → Bool
  | .d | .i => true
  | _ => false

def Kind.integer : Kind → Bool
  | .d | .i | .u | .x | .X => true
  | _ => false

-- A combination whose behaviour C99 defines. A width is not empty and has no
-- leading 0, which would be a flag; a precision is an int.
structure Directive.Valid (d : Directive) : Prop where
  width : ∀ ds, d.width = .digits ds → ∃ e es, ds = e :: es ∧ e ≠ 0
  precision : d.precision.value < 2 ^ 31
  zero : Flag.zero ∈ d.flags → d.kind.integer
  alternative : Flag.alternative ∈ d.flags → d.kind = .x ∨ d.kind = .X
  wide : d.kind = .c ∨ d.kind = .s → d.length = .plain ∨ d.length = .l
  character : d.kind = .c → d.precision = .absent
  percent : d.kind = .percent → d = ⟨[],.absent,.absent,.plain,.percent⟩

-- An amount given by `*` is the next argument, an int.
def Amount.read (amount : Amount) (args : List Arg) : Option (Option Int × List Arg) :=
  match amount,args with
  | .absent,args => some (none,args)
  | .digits ds,args => some (some (Amount.digits ds).value,args)
  | .star,.int v :: args => some (some v.toInt,args)
  | .star,_ => none

def Kind.value {w : Nat} (kind : Kind) (v : BitVec w) : Int := if kind.signed then v.toInt else v.toNat

-- The argument converted to the type that the length names; long, size_t and
-- ptrdiff_t have 32 bits.
def Directive.integer (d : Directive) (arg : Arg) : Option Int :=
  match d.length,arg with
  | .ll,.longLong v | .j,.longLong v => some (d.kind.value v)
  | .ll,_ | .j,_ => none
  | .hh,.int v => some (d.kind.value (v.setWidth 8))
  | .h,.int v => some (d.kind.value (v.setWidth 16))
  | _,.int v => some (d.kind.value v)
  | _,_ => none

def Directive.sign (d : Directive) (v : Int) : List Byte :=
  if v < 0 then [45]
  else if ¬d.kind.signed then []
  else if Flag.plus ∈ d.flags then [43]
  else if Flag.space ∈ d.flags then [32]
  else []

def Directive.base (d : Directive) (v : Int) : List Byte :=
  if Flag.alternative ∈ d.flags ∧ v ≠ 0 then
    match d.kind with
    | .x => [48,120]
    | .X => [48,88]
    | _ => []
  else []

def Kind.digits (kind : Kind) (n : Nat) : List Byte :=
  match kind with
  | .x => text (lower (written 16 n))
  | .X => text (written 16 n)
  | _ => text (written 10 n)

-- As many digits as the precision wants; none for a 0 with the precision 0.
def precise (precision : Nat) (digits : List Byte) : List Byte := List.replicate (precision - digits.length) 48 ++ digits

def Directive.digits (d : Directive) (precision : Option Nat) (v : Int) : List Byte :=
  if v = 0 ∧ precision = some 0 then [] else precise (precision.getD 1) (d.kind.digits v.natAbs)

def field (left : Bool) (width : Nat) (bytes : List Byte) : List Byte :=
  if left then bytes ++ List.replicate (width - bytes.length) 32
  else List.replicate (width - bytes.length) 32 ++ bytes

-- With zeros between what stands before the digits and the digits.
def zeroField (width : Nat) (before digits : List Byte) : List Byte :=
  before ++ List.replicate (width - (before.length + digits.length)) 48 ++ digits

-- The wide characters of an array in memory.
def wideChars : List Byte → List (BitVec 32)
  | a :: b :: c :: d :: rest => (d ++ c ++ b ++ a) :: wideChars rest
  | _ => []

def narrowText (budget : Option Nat) (memory : List Byte) : Option (List Byte) :=
  match budget with
  | none => if 0 ∈ memory then some (cString memory) else none
  | some n => if 0 ∈ memory ∨ n ≤ memory.length then some ((cString memory).take n) else none

-- A conversion specification with the ordinary bytes before it and the arguments it takes.
structure Turn where
  run : List Byte
  directive : Directive
  args : List Arg

structure Format where
  turns : List Turn
  last : List Byte

def Turn.text (t : Turn) : List Byte := t.run ++ 37 :: t.directive.bytes

def turnsText : List Turn → List Byte → List Byte
  | [],last => last
  | t :: rest,last => t.text ++ turnsText rest last

def turnsArgs : List Turn → List Arg → List Arg
  | [],more => more
  | t :: rest,more => t.args ++ turnsArgs rest more

def Format.text (f : Format) : List Byte := turnsText f.turns f.last
def Format.args (f : Format) (more : List Arg) : List Arg := turnsArgs f.turns more

def Ordinary (run : List Byte) : Prop := 37 ∉ run ∧ 0 ∉ run

instance (run : List Byte) : Decidable (Ordinary run) := inferInstanceAs (Decidable (37 ∉ run ∧ 0 ∉ run))

-- A pointer has 32 bits.
structure Turn.Valid (t : Turn) : Prop where
  ordinary : Ordinary t.run
  directive : t.directive.Valid
  memory : ∀ memory, .string (some memory) ∈ t.args → memory.length < 2 ^ 32

structure Format.Valid (f : Format) : Prop where
  turns : ∀ t ∈ f.turns, t.Valid
  last : Ordinary f.last

def ordinaryPiece (run : List Byte) : List (List Byte) := if run = [] then [] else [run]

section
-- The bytes of a wide character in the encoding of the locale.
variable (encode : BitVec 32 → List Byte)

-- At most `budget` bytes and no part of a character; `none` for an array that ends
-- before its null character is needed.
def wideText (budget : Option Nat) : List (BitVec 32) → Option (List Byte)
  | [] => if budget = some 0 then some [] else none
  | w :: ws =>
    if w = 0 then some []
    else
      match budget with
      | none => (wideText none ws).map (encode w ++ ·)
      | some n =>
        if n < (encode w).length then some []
        else (wideText (some (n - (encode w).length)) ws).map (encode w ++ ·)

-- What C99 prescribes when the field width and the precision are known; `none`
-- for arguments that are not the ones the conversion takes.
def Directive.converted (d : Directive) (width : Nat) (precision : Option Nat) (left : Bool) (args : List Arg) : Option (List Byte) :=
  match d.kind with
  | .percent =>
    match args with
    | [] => some [37]
    | _ => none
  | .c =>
    match args with
    | [.int v] => (if d.length = .l then wideText encode none [v,0] else some [v.setWidth 8]).map (field left width)
    | _ => none
  | .s =>
    match args with
    | [.string (some memory)] =>
      (if d.length = .l then wideText encode precision (wideChars memory) else narrowText precision memory).map (field left width)
    | _ => none
  | _ =>
    match args with
    | [arg] => (d.integer arg).map fun v =>
      let before := d.sign v ++ d.base v
      let digits := d.digits precision v
      if Flag.zero ∈ d.flags ∧ left = false ∧ precision = none then zeroField width before digits
      else field left width (before ++ digits)
    | _ => none

-- A negative width is a width after the flag -, a negative precision is none.
def Directive.prescribed (d : Directive) (args : List Arg) : Option (List Byte) := do
  let (w,args) ← d.width.read args
  let (p,args) ← d.precision.read args
  let precision := p.bind fun p => if p < 0 then none else some p.toNat
  d.converted encode (w.getD 0).natAbs precision (decide (Flag.minus ∈ d.flags ∨ w.getD 0 < 0)) args

-- The bytes in turn for the ordinary runs and for the specifications.
def turnsPrescribed : List Turn → List Byte → Option (List (List Byte))
  | [],last => some (ordinaryPiece last)
  | t :: rest,last => do
    let bytes ← t.directive.prescribed encode t.args
    let pieces ← turnsPrescribed rest last
    return ordinaryPiece t.run ++ bytes :: pieces

def Format.prescribed (f : Format) : Option (List (List Byte)) := turnsPrescribed encode f.turns f.last

end

end SandboxStack.Printf
