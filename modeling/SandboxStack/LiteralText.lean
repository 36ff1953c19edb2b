import SandboxStack.CTokens
import SandboxStack.IntegerTypes
import SandboxStack.NumberText

namespace SandboxStack.LiteralText
open CTokens NumberText

-- WasmValueType and the member of the union that it selects.
inductive WasmValue where
  | i32 (bits : BitVec 32)
  | i64 (bits : BitVec 64)
  | f32 (bits : BitVec 32)
  | f64 (bits : BitVec 64)
  deriving DecidableEq, Repr

-- `%i` and `%lli`.
def appendInt (z : Int) : List Char := if z < 0 then '-' :: written 10 z.natAbs else written 10 z.natAbs

def wasmCWriteLiteral : WasmValue → List Char
  | .i32 bits => appendInt bits.toInt ++ ['U']
  | .i64 bits => "W2C2_LL(".toList ++ appendInt bits.toInt ++ "U)".toList
  | .f32 bits =>
    if bits &&& 0x7f800000 = 0x7f800000 then
      if bits &&& 0x7fffff = 0 then (if bits &&& 0x80000000 ≠ 0 then ['-'] else []) ++ "INFINITY".toList
      else "f32_reinterpret_i32(0x".toList ++ padded 8 16 bits.toNat ++ [')']
    else "f32_reinterpret_i32(0x".toList ++ padded 8 16 bits.toNat ++ [')']
  | .f64 bits =>
    if bits &&& 0x7ff0000000000000 = 0x7ff0000000000000 then
      if bits &&& 0x7fffff = 0 then (if bits &&& 0x8000000000000000 ≠ 0 then ['-'] else []) ++ "INFINITY".toList
      else "f64_reinterpret_i64(0x".toList ++ padded 16 16 bits.toNat ++ [')']
    else "f64_reinterpret_i64(0x".toList ++ padded 16 16 bits.toNat ++ [')']

def int : IntType := ⟨32,false⟩
def unsignedInt : IntType := ⟨32,true⟩
def longLong : IntType := ⟨64,false⟩
def unsignedLongLong : IntType := ⟨64,true⟩

-- A value in C: that of an integer type, or the bits of a float or a double.
inductive CValue where
  | integer (t : IntType) (z : Int)
  | float (bits : BitVec 32)
  | double (bits : BitVec 64)
  deriving DecidableEq, Repr

-- The suffixes of integer constants: is there a u, and are there one or two l?
def suffix : List Char → Option (Bool × Bool)
  | [] => some (false,false)
  | ['u'] | ['U'] => some (true,false)
  | ['l'] | ['L'] | ['l','l'] | ['L','L'] => some (false,true)
  | ['u','l'] | ['u','L'] | ['U','l'] | ['U','L'] | ['l','u'] | ['l','U'] | ['L','u'] | ['L','U'] => some (true,true)
  | ['u','l','l'] | ['u','L','L'] | ['U','l','l'] | ['U','L','L'] => some (true,true)
  | ['l','l','u'] | ['l','l','U'] | ['L','L','u'] | ['L','L','U'] => some (true,true)
  | _ => none

def base : List Char → Nat × List Char
  | '0' :: 'x' :: rest | '0' :: 'X' :: rest => (16,rest)
  | '0' :: rest => (8,'0' :: rest)
  | cs => (10,cs)

-- The types a constant may have, the first that holds it counts; int has 32 bits,
-- long and long long have 64.
def candidates (decimal unsigned long : Bool) : List IntType :=
  (if long then [] else if unsigned then [unsignedInt] else if decimal then [int] else [int,unsignedInt]) ++
  (if unsigned then [unsignedLongLong] else if decimal then [longLong] else [longLong,unsignedLongLong])

def constantType (decimal unsigned long : Bool) (n : Nat) : Option IntType :=
  (candidates decimal unsigned long).find? fun t => t.InRange (n : Int)

def integerConstant (spelling : List Char) : Option CValue := do
  let (base,rest) := base spelling
  let digits := rest.takeWhile (isDigit base)
  if digits = [] then none else
  let (unsigned,long) ← suffix (rest.dropWhile (isDigit base))
  let n := read base digits
  let t ← constantType (base == 10) unsigned long n
  return .integer t n

-- Expressions of the emitted kind.
inductive CExpr where
  | constant (spelling : List Char)
  | object (name : List Char)
  | minus (e : CExpr)
  | apply (f : List Char) (e : CExpr)

def CExpr.parse : List Token → Option (CExpr × List Token)
  | .number spelling :: rest => some (.constant spelling,rest)
  | .punctuator ['-'] :: rest => do
    let (e,rest) ← parse rest
    return (.minus e,rest)
  | .identifier f :: .punctuator ['('] :: rest => do
    let (e,rest) ← parse rest
    match rest with
    | .punctuator [')'] :: rest => return (.apply f e,rest)
    | _ => none
  | .identifier x :: rest => some (.object x,rest)
  | _ => none

-- The type of a negated integer is int or wider, so it is not promoted; a signed
-- result has to be in range.
def negate : CValue → Option CValue
  | .integer t z => if t.unsigned ∨ t.InRange (-z) then some (.integer t (t.wrap (-z))) else none
  | .float bits => some (.float (bits ^^^ 0x80000000))
  | .double bits => some (.double (bits ^^^ 0x8000000000000000))

-- DEFINE_REINTERPRET: the argument becomes a U32 or a U64, whose bytes are copied.
def call (f : List Char) : CValue → Option CValue
  | .integer _ z =>
    if f = "f32_reinterpret_i32".toList then some (.float (BitVec.ofInt 32 z))
    else if f = "f64_reinterpret_i64".toList then some (.double (BitVec.ofInt 64 z))
    else none
  | _ => none

-- The header declares no objects, so a name alone denotes nothing.
def CExpr.value : CExpr → Option CValue
  | .constant spelling => integerConstant spelling
  | .object _ => none
  | .minus e => do
    let v ← e.value
    negate v
  | .apply f e => do
    let v ← e.value
    call f v

-- W2C2_LL(x) is x ## ll: the last token of the argument is joined with ll and
-- read again. The emitted uses come first in their text.
def paste (arg : List Token) : Option (List Token) := do
  let last ← arg.getLast?
  match tokens (last.spelling ++ ['l','l']) with
  | some [one] => return arg.dropLast ++ [one]
  | _ => none

def argument (depth : Nat) : List Token → Option (List Token × List Token)
  | [] => none
  | t :: rest =>
    if t = .punctuator [')'] ∧ depth = 0 then some ([],rest) else do
    let depth := if t = .punctuator ['('] then depth + 1 else if t = .punctuator [')'] then depth - 1 else depth
    let (arg,rest) ← argument depth rest
    return (t :: arg,rest)

def expand : List Token → Option (List Token)
  | .identifier name :: .punctuator ['('] :: rest =>
    if name = "W2C2_LL".toList then do
      let (arg,after) ← argument 0 rest
      let pasted ← paste arg
      return pasted ++ after
    else some (.identifier name :: .punctuator ['('] :: rest)
  | ts => some ts

-- Text as an expression under the header.
def denotes (text : List Char) : Option CValue := do
  let ts ← tokens text
  let ts ← expand ts
  match CExpr.parse ts with
  | some (e,[]) => e.value
  | _ => none

-- The value that the constant has in the module.
def WasmValue.meaning : WasmValue → CValue
  | .i32 bits => .integer unsignedInt bits.toNat
  | .i64 bits => .integer unsignedLongLong bits.toNat
  | .f32 bits => .float bits
  | .f64 bits => .double bits

-- Not an infinity; for a double also not a NaN whose lowest 23 bits are zero.
def WasmValue.Expressible : WasmValue → Prop
  | .i32 _ | .i64 _ => True
  | .f32 bits => ¬(bits &&& 0x7f800000 = 0x7f800000 ∧ bits &&& 0x7fffff = 0)
  | .f64 bits => ¬(bits &&& 0x7ff0000000000000 = 0x7ff0000000000000 ∧ bits &&& 0x7fffff = 0)

section
variable {n : Nat}

theorem digit_part {b : Nat} {c : Char} (digit : isDigit b c = true) : isIdentPart c = true := by
  have ranges : ('0' ≤ c ∧ c ≤ '9') ∨ ('a' ≤ c ∧ c ≤ 'f') ∨ ('A' ≤ c ∧ c ≤ 'F') := by
    unfold isDigit digitValue at digit
    split at digit
    · exact .inl ‹_›
    · split at digit
      · exact .inr (.inl ‹_›)
      · split at digit
        · exact .inr (.inr ‹_›)
        · cases digit
  simp only [isIdentPart,isIdentStart,Char.isAlpha,Char.isUpper,Char.isLower,Char.isDigit]
  simp only [Char.le_def,UInt32.le_iff_toNat_le] at ranges
  simp [UInt32.le_iff_toNat_le] at ranges ⊢
  omega

theorem part_plain {c : Char} (part : isIdentPart c = true) : c ≠ '\r' ∧ c ≠ '\\' := by
  constructor
  · rintro rfl
    exact absurd part (by decide)
  · rintro rfl
    exact absurd part (by decide)

-- A constant starts with a decimal digit and goes on with letters and digits.
structure Constant (cs : List Char) : Prop where
  start : ∃ c rest, cs = c :: rest ∧ c.isDigit = true
  parts : ∀ c ∈ cs, isIdentPart c = true

theorem digit_first {c : Char} (digit : c.isDigit = true) : Mode.first c = some (.number [c]) := by
  have ranges : '0' ≤ c ∧ c ≤ '9' := by simpa [Char.isDigit,Char.le_def,UInt32.le_iff_toNat_le] using digit
  have notSpace : isSpace c = false := by
    simp only [isSpace,Bool.or_eq_false_iff,beq_eq_false_iff_ne]
    refine ⟨⟨⟨⟨?_,?_⟩,?_⟩,?_⟩,?_⟩ <;> rintro rfl <;> exact absurd ranges (by decide)
  have notStart : isIdentStart c = false := by
    simp only [isIdentStart,Char.isAlpha,Char.isUpper,Char.isLower]
    simp only [Char.le_def,UInt32.le_iff_toNat_le] at ranges
    have other : c ≠ '_' := by
      rintro rfl
      exact absurd ranges (by decide)
    simp [UInt32.le_iff_toNat_le,other] at ranges ⊢
    omega
  simp [Mode.first,notSpace,notStart,digit]

theorem Constant.scanned {cs : List Char} (constant : Constant cs) {m : Mode} {before : List Token}
    (entered : ∀ c, c.isDigit = true → m.next c = (Mode.first c).map (before,·)) :
    scan m cs = some (before,.number cs) := by
  obtain ⟨c,rest,rfl,digit⟩ := constant.start
  have later : scan (.number [c]) rest = some ([],.number ([c] ++ rest)) :=
    scan_number fun d member => constant.parts d (.tail _ member)
  simp [scan,entered c digit,digit_first digit,later]

theorem Constant.plain {cs : List Char} (constant : Constant cs) : '\r' ∉ cs ∧ '\\' ∉ cs :=
  ⟨fun member => (part_plain (constant.parts _ member)).1 rfl,fun member => (part_plain (constant.parts _ member)).2 rfl⟩

theorem written_constant {after : List Char} (parts : ∀ c ∈ after, isIdentPart c = true) :
    Constant (written 10 n ++ after) := by
  have digits : ∀ c ∈ written 10 n, isDigit 10 c = true := fun c member => written_isDigit (by decide) (by decide) member
  refine ⟨?_,fun c member => ?_⟩
  · cases shape : written 10 n with
    | nil => exact absurd shape written_nonempty
    | cons c rest => exact ⟨c,rest ++ after,rfl,ten_digit (digits c (shape ▸ .head _))⟩
  · rcases List.mem_append.mp member with digit | last
    · exact digit_part (digits c digit)
    · exact parts c last

theorem padded_constant {width : Nat} : Constant ('0' :: 'x' :: padded width 16 n) := by
  refine ⟨⟨'0',_,rfl,by decide⟩,fun c member => ?_⟩
  rcases List.mem_cons.mp member with rfl | member
  · decide
  · rcases List.mem_cons.mp member with rfl | digit
    · decide
    · exact digit_part (padded_isDigit (by decide) (by decide) digit)

theorem opened {c : Char} : (Mode.punctuator ['(']).next c = (Mode.first c).map ([.punctuator ['(']],·) := by
  have short : extendsPunctuator ['('] c = false := by simp [extendsPunctuator,longPunctuators,List.isPrefixOf]
  simp [Mode.next,short,isPunctuator]

theorem minus_digit {c : Char} (digit : c.isDigit = true) :
    (Mode.punctuator ['-']).next c = (Mode.first c).map ([.punctuator ['-']],·) := by
  have short : extendsPunctuator ['-'] c = false := by
    have others : c ≠ '>' ∧ c ≠ '=' ∧ c ≠ '-' := by
      refine ⟨?_,?_,?_⟩ <;> rintro rfl <;> exact absurd digit (by decide)
    simpa [extendsPunctuator,longPunctuators,List.isPrefixOf] using others
  simp [Mode.next,short,isPunctuator]

-- A decimal constant as C reads it: 0 has base 8.
theorem base_written {c : Char} {after : List Char} (letter : c ≠ 'x' ∧ c ≠ 'X') :
    ∃ b, 1 < b ∧ b ≤ 10 ∧ base (written 10 n ++ c :: after) = (b,written 10 n ++ c :: after) ∧
      (∀ d ∈ written 10 n, isDigit b d = true) ∧ read b (written 10 n) = n := by
  by_cases zero : n = 0
  · subst zero
    refine ⟨8,by decide,by decide,?_,List.all_eq_true.mp rfl,by decide⟩
    show base ('0' :: c :: after) = _
    unfold base
    split
    · simp_all
    · simp_all
    · rename_i same
      cases same
      rfl
    · rename_i other
      exact absurd rfl (other _)
  · obtain ⟨first,rest,shape,other⟩ : ∃ d rest, written 10 n = d :: rest ∧ d ≠ '0' :=
      written_head (by decide) (by decide) zero
    refine ⟨10,by decide,by decide,?_,fun d member => written_isDigit (by decide) (by decide) member,
      read_written (by decide) (by decide)⟩
    rw [shape]
    unfold base
    split <;> simp_all

theorem integerConstant_parts {spelling digits rest : List Char} {b : Nat} {unsigned long : Bool} {t : IntType}
    (based : base spelling = (b,rest)) (taken : rest.takeWhile (isDigit b) = digits) (nonempty : digits ≠ [])
    (last : suffix (rest.dropWhile (isDigit b)) = some (unsigned,long))
    (found : constantType (b == 10) unsigned long (read b digits) = some t) :
    integerConstant spelling = some (.integer t (read b digits)) := by
  simp [integerConstant,based,taken,nonempty,last,found]

theorem decimal_constant {after : List Char} {long : Bool} {t : IntType} (shape : suffix ('U' :: after) = some (true,long))
    (found : ∀ decimal, constantType decimal true long n = some t) :
    integerConstant (written 10 n ++ 'U' :: after) = some (.integer t n) := by
  obtain ⟨b,_,low,based,digits,value⟩ := @base_written n 'U' after (by decide)
  have stop : isDigit b 'U' = false := rfl
  have taken : (written 10 n ++ 'U' :: after).takeWhile (isDigit b) = written 10 n := by
    rw [List.takeWhile_append_of_pos digits]
    simp [stop]
  have dropped : (written 10 n ++ 'U' :: after).dropWhile (isDigit b) = 'U' :: after := by
    rw [List.dropWhile_append_of_pos digits]
    simp [stop]
  have read_back := integerConstant_parts based taken written_nonempty (dropped ▸ shape)
    (by rw [value]; exact found _)
  rwa [value] at read_back

theorem fits_some_type (bounded : n < 2 ^ 64) :
    ∃ t, constantType false false false n = some t := by
  have wide : unsignedLongLong.InRange (n : Int) := by
    rw [IntType.range_unsigned rfl]
    constructor
    · exact Int.natCast_nonneg n
    · exact_mod_cast bounded
  apply Option.isSome_iff_exists.mp
  rw [constantType,List.find?_isSome]
  exact ⟨unsignedLongLong,by simp [candidates],decide_eq_true wide⟩

theorem hex_constant {width : Nat} (bounded : n < 2 ^ 64) :
    ∃ t, integerConstant ('0' :: 'x' :: padded width 16 n) = some (.integer t n) := by
  have digits : ∀ d ∈ padded width 16 n, isDigit 16 d = true := fun d member =>
    padded_isDigit (by decide) (by decide) member
  have taken : (padded width 16 n).takeWhile (isDigit 16) = padded width 16 n := List.takeWhile_eq_self_iff.mpr digits
  have dropped : (padded width 16 n).dropWhile (isDigit 16) = [] := List.dropWhile_eq_nil_iff.mpr digits
  have nonempty : padded width 16 n ≠ [] := by simp [padded,written_nonempty]
  have value : read 16 (padded width 16 n) = n := read_padded (by decide) (by decide)
  have based : base ('0' :: 'x' :: padded width 16 n) = (16,padded width 16 n) := rfl
  have last : suffix ((padded width 16 n).dropWhile (isDigit 16)) = some (false,false) := by
    rw [dropped]
    rfl
  obtain ⟨t,found⟩ := fits_some_type bounded
  have read_back := integerConstant_parts based taken nonempty last (by rw [value]; exact found)
  rw [value] at read_back
  exact ⟨t,read_back⟩

theorem Constant.tokens {cs : List Char} (constant : Constant cs) : tokens cs = some [.number cs] := by
  rw [tokens_plain constant.plain.1 constant.plain.2]
  have scanned : scan .between cs = some ([],.number cs) := constant.scanned fun _ _ => rfl
  exact scanAll_of scanned rfl

theorem denotes_parts {text : List Char} {ts ts' : List Token} {e : CExpr} (scanned : CTokens.tokens text = some ts)
    (expanded : expand ts = some ts') (parsed : CExpr.parse ts' = some (e,[])) : denotes text = e.value := by
  simp [denotes,scanned,expanded,parsed]

end

def sign (z : Int) : List Token := if z < 0 then [.punctuator ['-']] else []

section
variable {z : Int} {after : List Char}

theorem appendInt_plain (parts : ∀ c ∈ after, isIdentPart c = true) :
    '\r' ∉ appendInt z ++ after ∧ '\\' ∉ appendInt z ++ after := by
  have plain := (written_constant (n := z.natAbs) parts).plain
  unfold appendInt
  split <;> simpa using plain

-- Printed integers scanned from a mode that a digit and a minus sign leave.
theorem appendInt_scanned {m : Mode} {before : List Token} (parts : ∀ c ∈ after, isIdentPart c = true)
    (entered : ∀ c, m.next c = (Mode.first c).map (before,·)) :
    scan m (appendInt z ++ after) = some (before ++ sign z,.number (written 10 z.natAbs ++ after)) := by
  have constant := written_constant (n := z.natAbs) parts
  unfold appendInt sign
  split
  · have digits := constant.scanned fun c digit => minus_digit digit
    have first : m.next '-' = some (before,.punctuator ['-']) := by
      rw [entered]
      rfl
    simp [scan,first,digits]
  · simpa using constant.scanned fun c _ => entered c

theorem sign_value {spelling : List Char} {t : IntType} {n : Nat} (absolute : z.natAbs = n) (unsigned : t.unsigned = true)
    (range : z < 2 ^ t.bits) (constant : integerConstant spelling = some (.integer t n)) :
    ∃ e, CExpr.parse (sign z ++ [.number spelling]) = some (e,[]) ∧ e.value = some (.integer t (t.wrap z)) := by
  unfold sign
  split
  · rename_i negative
    have back : -(n : Int) = z := by omega
    exact ⟨.minus (.constant spelling),rfl,by simp [CExpr.value,constant,negate,unsigned,back]⟩
  · rename_i positive
    have same : (n : Int) = z := by omega
    have kept : t.wrap z = z := (IntType.range_unsigned unsigned).mpr ⟨by omega,range⟩
    exact ⟨.constant spelling,rfl,by simp [CExpr.value,constant,same,kept]⟩

theorem bits_value {t : IntType} (unsigned : t.unsigned = true) (bits : BitVec t.bits) : t.wrap bits.toInt = bits.toNat := by
  rw [← IntType.value_ofInt,BitVec.ofInt_toInt]
  simp [IntType.value,unsigned]

end

-- The text of each kind of constant.
theorem i32_denotes (bits : BitVec 32) : denotes (wasmCWriteLiteral (.i32 bits)) = some (WasmValue.i32 bits).meaning := by
  obtain ⟨n,absolute⟩ : ∃ n, bits.toInt.natAbs = n := ⟨_,rfl⟩
  have letter : ∀ c ∈ ['U'], isIdentPart c = true := List.all_eq_true.mp rfl
  have plain := appendInt_plain (z := bits.toInt) letter
  have scanned : scan .between (appendInt bits.toInt ++ ['U']) =
      some ([] ++ sign bits.toInt,.number (written 10 n ++ ['U'])) := by
    rw [← absolute]
    exact appendInt_scanned letter fun _ => rfl
  have whole : tokens (appendInt bits.toInt ++ ['U']) = some (sign bits.toInt ++ [.number (written 10 n ++ ['U'])]) := by
    rw [tokens_plain plain.1 plain.2]
    exact scanAll_of scanned rfl
  have low := BitVec.le_toInt bits
  have high := BitVec.toInt_lt (x := bits)
  have range : unsignedInt.InRange (n : Int) := by
    rw [IntType.range_unsigned rfl]
    simp only [unsignedInt]
    omega
  have shape : suffix ['U'] = some (true,false) := rfl
  have typed : ∀ decimal, constantType decimal true false n = some unsignedInt := by
    simp [constantType,candidates,range]
  have constant : integerConstant (written 10 n ++ ['U']) = some (.integer unsignedInt n) := decimal_constant shape typed
  have below : bits.toInt < 2 ^ unsignedInt.bits := by
    simp only [unsignedInt]
    omega
  have unsigned : unsignedInt.unsigned = true := rfl
  obtain ⟨e,parsed,value⟩ := sign_value absolute unsigned below constant
  have unexpanded : expand (sign bits.toInt ++ [.number (written 10 n ++ ['U'])]) =
      some (sign bits.toInt ++ [.number (written 10 n ++ ['U'])]) := by
    unfold sign
    split <;> rfl
  have wrapped : unsignedInt.wrap bits.toInt = bits.toNat := bits_value unsigned bits
  have text : wasmCWriteLiteral (.i32 bits) = appendInt bits.toInt ++ ['U'] := rfl
  rw [text,denotes_parts whole unexpanded parsed,value,wrapped,WasmValue.meaning]

theorem i64_denotes (bits : BitVec 64) : denotes (wasmCWriteLiteral (.i64 bits)) = some (WasmValue.i64 bits).meaning := by
  obtain ⟨n,absolute⟩ : ∃ n, bits.toInt.natAbs = n := ⟨_,rfl⟩
  have letter : ∀ c ∈ ['U'], isIdentPart c = true := List.all_eq_true.mp rfl
  have plain := appendInt_plain (z := bits.toInt) letter
  have text : wasmCWriteLiteral (.i64 bits) = "W2C2_LL(".toList ++ ((appendInt bits.toInt ++ ['U']) ++ [')']) := by
    rw [List.append_assoc]
    rfl
  have opens : scan .between "W2C2_LL(".toList = some ([.identifier "W2C2_LL".toList],.punctuator ['(']) := by decide
  have inner : scan (.punctuator ['(']) (appendInt bits.toInt ++ ['U']) =
      some ([.punctuator ['(']] ++ sign bits.toInt,.number (written 10 n ++ ['U'])) := by
    rw [← absolute]
    exact appendInt_scanned letter fun _ => opened
  have closes : scan (.number (written 10 n ++ ['U'])) [')'] = some ([.number (written 10 n ++ ['U'])],.punctuator [')']) := rfl
  have whole : tokens (wasmCWriteLiteral (.i64 bits)) = some (.identifier "W2C2_LL".toList :: .punctuator ['('] ::
      (sign bits.toInt ++ [.number (written 10 n ++ ['U']),.punctuator [')']])) := by
    rw [text,tokens_plain]
    · have closed : (Mode.punctuator [')']).finish = some [.punctuator [')']] := rfl
      have scanned := scanAll_of (scan_append opens (scan_append inner closes)) closed
      rw [scanned]
      simp
    · simpa using plain.1
    · simpa using plain.2
  have letters : ∀ c ∈ ['U','l','l'], isIdentPart c = true := List.all_eq_true.mp rfl
  have joined : tokens (written 10 n ++ ['U','l','l']) = some [.number (written 10 n ++ ['U','l','l'])] :=
    (written_constant letters).tokens
  have expanded : expand (.identifier "W2C2_LL".toList :: .punctuator ['('] ::
      (sign bits.toInt ++ [.number (written 10 n ++ ['U']),.punctuator [')']])) =
      some (sign bits.toInt ++ [.number (written 10 n ++ ['U','l','l'])]) := by
    unfold sign
    split <;> simp [expand,argument,paste,Token.spelling,joined]
  have low := BitVec.le_toInt bits
  have high := BitVec.toInt_lt (x := bits)
  have range : unsignedLongLong.InRange (n : Int) := by
    rw [IntType.range_unsigned rfl]
    simp only [unsignedLongLong]
    omega
  have shape : suffix ['U','l','l'] = some (true,true) := rfl
  have typed : ∀ decimal, constantType decimal true true n = some unsignedLongLong := by
    simp [constantType,candidates,range]
  have constant : integerConstant (written 10 n ++ ['U','l','l']) = some (.integer unsignedLongLong n) :=
    decimal_constant shape typed
  have below : bits.toInt < 2 ^ unsignedLongLong.bits := by
    simp only [unsignedLongLong]
    omega
  have unsigned : unsignedLongLong.unsigned = true := rfl
  obtain ⟨e,parsed,value⟩ := sign_value absolute unsigned below constant
  have wrapped : unsignedLongLong.wrap bits.toInt = bits.toNat := bits_value unsigned bits
  rw [denotes_parts whole expanded parsed,value,wrapped,WasmValue.meaning]

theorem reinterpret_denotes {f : List Char} {n width : Nat} {v : CValue} (bounded : n < 2 ^ 64)
    (named : ∀ c ∈ f, isIdentPart c = true) (opens : scan .between (f ++ ['(']) = some ([.identifier f],.punctuator ['(']))
    (function : f ≠ "W2C2_LL".toList) (called : ∀ t, call f (.integer t n) = some v) :
    denotes (f ++ ['('] ++ (('0' :: 'x' :: padded width 16 n) ++ [')'])) = some v := by
  have constant : Constant ('0' :: 'x' :: padded width 16 n) := padded_constant
  obtain ⟨t,value⟩ := @hex_constant n width bounded
  have plain := constant.plain
  generalize '0' :: 'x' :: padded width 16 n = spelling at *
  have inner : scan (.punctuator ['(']) spelling = some ([.punctuator ['(']],.number spelling) :=
    constant.scanned fun _ _ => opened
  have closes : scan (.number spelling) [')'] = some ([.number spelling],.punctuator [')']) := rfl
  have whole : tokens (f ++ ['('] ++ (spelling ++ [')'])) =
      some [.identifier f,.punctuator ['('],.number spelling,.punctuator [')']] := by
    rw [tokens_plain]
    · exact scanAll_of (scan_append opens (scan_append inner closes)) rfl
    · simpa [plain.1] using fun member => (part_plain (named _ member)).1 rfl
    · simpa [plain.2] using fun member => (part_plain (named _ member)).2 rfl
  have unexpanded : expand [.identifier f,.punctuator ['('],.number spelling,.punctuator [')']] =
      some [.identifier f,.punctuator ['('],.number spelling,.punctuator [')']] := by
    rw [expand,if_neg function]
  have parsed : CExpr.parse [.identifier f,.punctuator ['('],.number spelling,.punctuator [')']] =
      some (.apply f (.constant spelling),[]) := rfl
  rw [denotes_parts whole unexpanded parsed]
  simp [CExpr.value,value,called]

theorem f32_call (bits : BitVec 32) : denotes ("f32_reinterpret_i32(0x".toList ++ padded 8 16 bits.toNat ++ [')']) =
    some (.float bits) := by
  have called : ∀ t, call "f32_reinterpret_i32".toList (.integer t bits.toNat) = some (.float bits) := by
    intro t
    simp [call]
  have bounded : bits.toNat < 2 ^ 64 := Nat.lt_trans bits.isLt (by decide)
  exact reinterpret_denotes bounded (List.all_eq_true.mp rfl) (by decide) (by decide) called

theorem f64_call (bits : BitVec 64) : denotes ("f64_reinterpret_i64(0x".toList ++ padded 16 16 bits.toNat ++ [')']) =
    some (.double bits) := by
  have called : ∀ t, call "f64_reinterpret_i64".toList (.integer t bits.toNat) = some (.double bits) := by
    intro t
    simp [call]
  exact reinterpret_denotes bits.isLt (List.all_eq_true.mp rfl) (by decide) (by decide) called

-- There is no object of this name.
theorem infinity_denotes (negative : Prop) [Decidable negative] :
    denotes ((if negative then ['-'] else []) ++ "INFINITY".toList) = none := by
  split <;> decide

theorem literal_denotes_iff (value : WasmValue) :
    denotes (wasmCWriteLiteral value) = some value.meaning ↔ value.Expressible := by
  cases value with
  | i32 bits => exact iff_of_true (i32_denotes bits) trivial
  | i64 bits => exact iff_of_true (i64_denotes bits) trivial
  | f32 bits =>
    have text : wasmCWriteLiteral (.f32 bits) =
        if bits &&& 0x7f800000 = 0x7f800000 then
          if bits &&& 0x7fffff = 0 then (if bits &&& 0x80000000 ≠ 0 then ['-'] else []) ++ "INFINITY".toList
          else "f32_reinterpret_i32(0x".toList ++ padded 8 16 bits.toNat ++ [')']
        else "f32_reinterpret_i32(0x".toList ++ padded 8 16 bits.toNat ++ [')'] := rfl
    rw [text,WasmValue.meaning,WasmValue.Expressible]
    split
    · rename_i exponent
      split
      · rename_i fraction
        rw [infinity_denotes]
        exact iff_of_false (fun same => by cases same) fun expressible => expressible ⟨exponent,fraction⟩
      · rename_i fraction
        exact iff_of_true (f32_call bits) fun both => fraction both.2
    · rename_i exponent
      exact iff_of_true (f32_call bits) fun both => exponent both.1
  | f64 bits =>
    have text : wasmCWriteLiteral (.f64 bits) =
        if bits &&& 0x7ff0000000000000 = 0x7ff0000000000000 then
          if bits &&& 0x7fffff = 0 then (if bits &&& 0x8000000000000000 ≠ 0 then ['-'] else []) ++ "INFINITY".toList
          else "f64_reinterpret_i64(0x".toList ++ padded 16 16 bits.toNat ++ [')']
        else "f64_reinterpret_i64(0x".toList ++ padded 16 16 bits.toNat ++ [')'] := rfl
    rw [text,WasmValue.meaning,WasmValue.Expressible]
    split
    · rename_i exponent
      split
      · rename_i fraction
        rw [infinity_denotes]
        exact iff_of_false (fun same => by cases same) fun expressible => expressible ⟨exponent,fraction⟩
      · rename_i fraction
        exact iff_of_true (f64_call bits) fun both => fraction both.2
    · rename_i exponent
      exact iff_of_true (f64_call bits) fun both => exponent both.1

namespace Controls

-- The canonical NaN of f64, whose fraction has only its highest bit set.
theorem canonical_nan_denotes_nothing :
    denotes (wasmCWriteLiteral (.f64 0x7ff8000000000000)) = none ∧
      denotes (wasmCWriteLiteral (.f64 0x7ff8000000000000)) ≠ some (WasmValue.f64 0x7ff8000000000000).meaning := by
  have text : wasmCWriteLiteral (.f64 0x7ff8000000000000) = [] ++ "INFINITY".toList := by decide
  have nothing : denotes (wasmCWriteLiteral (.f64 0x7ff8000000000000)) = none := by
    rw [text]
    decide
  rw [nothing]
  exact ⟨rfl,fun same => by cases same⟩

end Controls

end SandboxStack.LiteralText
