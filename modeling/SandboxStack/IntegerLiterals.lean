import SandboxStack.CTypes
import SandboxStack.NumberText

namespace SandboxStack.Cc
open NumberText

-- What convert_pp_int does with a pp-number: `other` is its false.
inductive Conversion where
  | number (val : Nat) (ty : Ty)
  | other
  | error (message : String)

-- strncasecmp(p, s, strlen(s)) == 0, for a lower-case s.
def startsAnyCase (s p : List Char) : Bool := (p.take s.length).map Char.toLower == s

def readBase (p : List Char) : Nat × List Char :=
  if startsAnyCase ['0','x'] p && p[2]?.any (isDigit 16) then (16,p.drop 2)
  else if startsAnyCase ['0','b'] p && (p[2]? == some '0' || p[2]? == some '1') then (2,p.drop 2)
  else if p.head? = some '0' then (8,p)
  else (10,p)

-- The value, the text behind it and whether it is ERANGE. A pp-number does not start
-- with white space or a sign.
def strtoull (base : Nat) (p : List Char) : Nat × List Char × Bool :=
  let q := if base = 16 ∧ startsAnyCase ['0','x'] p && p[2]?.any (isDigit 16) then p.drop 2 else p
  let val := read base (q.takeWhile (isDigit base))
  (min val (2 ^ 64 - 1),q.dropWhile (isDigit base),decide (2 ^ 64 ≤ val))

-- Whether strpbrk(p, ".eEpP") points into the token, whose end is `rest` characters on.
def mentionsFloat (rest : Nat) (p : List Char) : Bool := (p.take rest).any fun c => ".eEpP".toList.contains c

structure Suffix where
  l : Bool
  u : Bool
  ll : Bool
  deriving DecidableEq, Repr

def startswith (s : String) (p : List Char) : Bool := s.toList.isPrefixOf p

def readSuffix (p : List Char) : Suffix × List Char :=
  if startswith "LLU" p || startswith "LLu" p || startswith "llU" p || startswith "llu" p ||
      startswith "ULL" p || startswith "Ull" p || startswith "uLL" p || startswith "ull" p then
    (⟨true,true,true⟩,p.drop 3)
  else if startsAnyCase ['l','u'] p || startsAnyCase ['u','l'] p then (⟨true,true,false⟩,p.drop 2)
  else if startswith "LL" p || startswith "ll" p then (⟨true,false,true⟩,p.drop 2)
  else if p.head? = some 'L' ∨ p.head? = some 'l' then (⟨true,false,false⟩,p.drop 1)
  else if p.head? = some 'U' ∨ p.head? = some 'u' then (⟨false,true,false⟩,p.drop 1)
  else (⟨false,false,false⟩,p)

def inferType (base : Nat) (suffix : Suffix) (val : Nat) : Ty :=
  let ⟨l,u,ll⟩ := suffix
  let above (n : Nat) : Bool := val >>> n != 0
  if ll then
    if u then .llong true else if base ≠ 10 ∧ above 63 then .llong true else .llong false
  else if base = 10 then
    if l && u then if above 32 then .llong true else .long true
    else if l then if above 31 then .llong false else .long false
    else if u then if above 32 then .llong true else .int true
    else if above 31 then .llong false else .int false
  else if l && u then if above 32 then .llong true else .long true
  else if l then
    if above 63 then .llong true else if above 32 then .llong false else if above 31 then .long true else .long false
  else if u then if above 32 then .llong true else .int true
  else if above 63 then .llong true
  else if above 32 then .llong false
  else if above 31 then .int true
  else .int false

-- The token is the first `len` characters of the text.
def convertPpInt (text : List Char) (len : Nat) : Conversion :=
  let (base,p) := readBase text
  let (val,p,range) := strtoull base p
  let rest := len - (text.length - p.length)
  if range then if mentionsFloat rest p then .other else .error "integer literal is too large"
  else
    let (suffix,p) := readSuffix p
    if text.length - p.length ≠ len then .other
    else if base = 10 ∧ suffix.u = false ∧ val >>> 63 ≠ 0 then
      .error "decimal integer literal is too large for any signed type"
    else .number val (inferType base suffix val)

-- The literals of C, in its own terms.
inductive Notation where
  | decimal | octal | hexadecimal (upper : Bool) | binary (upper : Bool)
  deriving DecidableEq, Repr

namespace Notation

def base : Notation → Nat
  | .decimal => 10
  | .octal => 8
  | .hexadecimal _ => 16
  | .binary _ => 2

def start : Notation → List Char
  | .decimal | .octal => []
  | .hexadecimal upper => ['0',if upper then 'X' else 'x']
  | .binary upper => ['0',if upper then 'B' else 'b']

-- A decimal literal does not start with 0, an octal one does.
def Leads : Notation → Char → Prop
  | .decimal,c => c ≠ '0'
  | .octal,c => c = '0'
  | _,_ => True

end Notation

inductive LongSuffix where
  | none | long (upper : Bool) | longLong (upper : Bool)
  deriving DecidableEq, Repr

def LongSuffix.spelling : LongSuffix → List Char
  | .none => []
  | .long upper => [if upper then 'L' else 'l']
  | .longLong upper => if upper then ['L','L'] else ['l','l']

structure IntegerSuffix where
  unsigned : Option Bool
  long : LongSuffix
  unsignedFirst : Bool
  deriving DecidableEq, Repr

def IntegerSuffix.spelling (s : IntegerSuffix) : List Char :=
  let u := match s.unsigned with
    | .none => []
    | some upper => [if upper then 'U' else 'u']
  if s.unsignedFirst then u ++ s.long.spelling else s.long.spelling ++ u

structure IntegerLiteral where
  notation_ : Notation
  lead : Char
  digits : List Char
  leads : notation_.Leads lead
  legal : ∀ c ∈ lead :: digits, isDigit notation_.base c = true
  suffix : IntegerSuffix

namespace IntegerLiteral

def spelling (n : IntegerLiteral) : List Char := n.notation_.start ++ n.lead :: n.digits ++ n.suffix.spelling

def value (n : IntegerLiteral) : Nat := read n.notation_.base (n.lead :: n.digits)

-- The types of C11 6.4.4.1, in order.
def types (n : IntegerLiteral) : List Ty :=
  let decimal := n.notation_ = .decimal
  let both (signed unsigned : Ty) : List Ty := if decimal then [signed] else [signed,unsigned]
  match n.suffix.unsigned,n.suffix.long with
  | .none,.none => both (.int false) (.int true) ++ both (.long false) (.long true) ++ both (.llong false) (.llong true)
  | .none,.long _ => both (.long false) (.long true) ++ both (.llong false) (.llong true)
  | .none,.longLong _ => both (.llong false) (.llong true)
  | some _,.none => [.int true,.long true,.llong true]
  | some _,.long _ => [.long true,.llong true]
  | some _,.longLong _ => [.llong true]

end IntegerLiteral

def Ty.holds (T : Target) (ty : Ty) (v : Nat) : Bool :=
  v < 2 ^ (if ty.isUnsigned then 8 * ty.size T else 8 * ty.size T - 1)

-- The value, and the size and signedness of the first type that can represent it.
def Standard (T : Target) (n : IntegerLiteral) (c : Conversion) : Prop :=
  match n.types.find? fun ty => ty.holds T n.value with
  | some ty => ∃ ty', c = .number n.value ty' ∧ ty'.size T = ty.size T ∧ ty'.isUnsigned = ty.isUnsigned
  | .none => ∃ message, c = .error message

section
variable {c d : Char} {p : List Char}

theorem toLower_cases (lower : c.toLower = d) : c = d ∨ c.toNat + 32 = d.toNat ∧ 65 ≤ c.toNat := by
  unfold Char.toLower at lower
  split at lower
  · rename_i upper
    right
    have low : 65 ≤ c.val.toNat := UInt32.le_iff_toNat_le.mp upper.1
    have high : c.val.toNat ≤ 90 := UInt32.le_iff_toNat_le.mp upper.2
    subst lower
    refine ⟨?_,low⟩
    have difference : ('a'.val - 'A'.val).toNat = 32 := rfl
    show c.val.toNat + 32 = (c.val + ('a'.val - 'A'.val)).toNat
    rw [UInt32.toNat_add,difference]
    omega
  · exact .inl lower

theorem char_of_toNat {n : Nat} (code : c.toNat = n) : c = Char.ofNat n := by
  rw [← code,Char.ofNat_toNat]

theorem toLower_zero (lower : c.toLower = '0') : c = '0' := by
  rcases toLower_cases lower with same | ⟨code,upper⟩
  · exact same
  · have zero : '0'.toNat = 48 := rfl
    omega

theorem toLower_letter {n : Nat} (code : d.toNat = n + 32) (lower : c.toLower = d) : c = d ∨ c = Char.ofNat n := by
  rcases toLower_cases lower with same | ⟨code',_⟩
  · exact .inl same
  · exact .inr (char_of_toNat (by omega))

theorem startsAnyCase_two {a b : Char} : startsAnyCase [a,b] p = true ↔
    ∃ c d rest, p = c :: d :: rest ∧ c.toLower = a ∧ d.toLower = b := by
  unfold startsAnyCase
  cases p with
  | nil => simp
  | cons c p =>
    cases p with
    | nil => simp
    | cons d p => simp

end

-- The characters behind a pp-number do not continue it.
def Ended (following : List Char) : Prop := ∀ c, following.head? = some c → c.isAlphanum = false

section
variable {c : Char} {base : Nat}

-- What a digit of a base up to 16 is not.
theorem digit_alphanum (digit : isDigit base c = true) : c.isAlphanum = true := by
  unfold isDigit digitValue at digit
  simp only [Char.isAlphanum,Char.isAlpha,Char.isUpper,Char.isLower,Char.isDigit,Bool.or_eq_true,Bool.and_eq_true,
    decide_eq_true_eq]
  split at digit
  · rename_i range
    right
    exact range
  · split at digit
    · rename_i range
      left; right
      refine ⟨range.1,?_⟩
      have bound : c.val ≤ 'f'.val := range.2
      exact UInt32.le_trans bound (by decide)
    · split at digit
      · rename_i range
        left; left
        refine ⟨range.1,?_⟩
        have bound : c.val ≤ 'F'.val := range.2
        exact UInt32.le_trans bound (by decide)
      · cases digit

theorem suffix_member {s : IntegerSuffix} (member : c ∈ s.spelling) : c = 'u' ∨ c = 'U' ∨ c = 'l' ∨ c = 'L' := by
  obtain ⟨unsigned,long,first⟩ := s
  rcases unsigned with _ | (_ | _) <;> rcases long with _ | (_ | _) | (_ | _) <;> cases first <;>
    simp [IntegerSuffix.spelling,LongSuffix.spelling] at member <;> grind

end

def IntegerSuffix.flags (s : IntegerSuffix) : Suffix :=
  match s.long with
  | .none => ⟨false,s.unsigned.isSome,false⟩
  | .long _ => ⟨true,s.unsigned.isSome,false⟩
  | .longLong _ => ⟨true,s.unsigned.isSome,true⟩

theorem startsAnyCase_head {a b c : Char} {p : List Char} (other : c.toLower ≠ a) :
    startsAnyCase [a,b] (c :: p) = false := by
  cases p with
  | nil => simp [startsAnyCase]
  | cons d p => simp [startsAnyCase,other]

theorem readSuffix_exact (s : IntegerSuffix) {following : List Char} (ended : Ended following) :
    readSuffix (s.spelling ++ following) = (s.flags,following) := by
  have quiet : ∀ c rest, following = c :: rest →
      c ≠ 'l' ∧ c ≠ 'L' ∧ c ≠ 'u' ∧ c ≠ 'U' ∧ c.toLower ≠ 'l' ∧ c.toLower ≠ 'u' := by
    intro c rest same
    have plain := ended c (by rw [same]; rfl)
    refine ⟨?_,?_,?_,?_,?_,?_⟩
    · rintro rfl; cases plain
    · rintro rfl; cases plain
    · rintro rfl; cases plain
    · rintro rfl; cases plain
    · intro lower
      rcases toLower_letter (n := 76) rfl lower with rfl | rfl <;> cases plain
    · intro lower
      rcases toLower_letter (n := 85) rfl lower with rfl | rfl <;> cases plain
  obtain ⟨unsigned,long,first⟩ := s
  cases following with
  | nil =>
    rcases unsigned with _ | (_ | _) <;> rcases long with _ | (_ | _) | (_ | _) <;> cases first <;> rfl
  | cons c rest =>
    obtain ⟨l,L,u,U,lower,lower'⟩ := quiet c rest rfl
    rcases unsigned with _ | (_ | _) <;> rcases long with _ | (_ | _) | (_ | _) <;> cases first <;>
      simp [IntegerSuffix.spelling,LongSuffix.spelling,readSuffix,startswith,startsAnyCase,IntegerSuffix.flags,l,L,u,U,
        l.symm,L.symm,u.symm,U.symm,lower,lower']

section
variable (n : IntegerLiteral) {following : List Char}

def IntegerLiteral.tail (following : List Char) : List Char := n.suffix.spelling ++ following

theorem tail_head (ended : Ended following) {c : Char} (head : (n.tail following).head? = some c) :
    (c = 'u' ∨ c = 'U' ∨ c = 'l' ∨ c = 'L') ∨ c.isAlphanum = false := by
  unfold IntegerLiteral.tail at head
  cases spelled : n.suffix.spelling with
  | nil =>
    rw [spelled] at head
    exact .inr (ended c head)
  | cons d rest =>
    rw [spelled] at head
    cases head
    exact .inl (suffix_member (by rw [spelled]; exact .head _))

-- No digit follows the digits, and no x or b the first one.
theorem tail_nondigit (ended : Ended following) (base : Nat) : (n.tail following).takeWhile (isDigit base) = [] := by
  cases text : n.tail following with
  | nil => rfl
  | cons c rest =>
    have nondigit : isDigit base c = false := by
      rcases tail_head n ended (c := c) (by rw [text]; rfl) with (rfl | rfl | rfl | rfl) | plain
      · rfl
      · rfl
      · rfl
      · rfl
      · cases digit : isDigit base c with
        | false => rfl
        | true => rw [digit_alphanum digit] at plain; cases plain
    rw [List.takeWhile_cons,nondigit]
    rfl

theorem second_head (ended : Ended following) {c : Char} (head : (n.digits ++ n.tail following).head? = some c) :
    isDigit n.notation_.base c = true ∨ (c = 'u' ∨ c = 'U' ∨ c = 'l' ∨ c = 'L') ∨ c.isAlphanum = false := by
  cases rest : n.digits with
  | nil =>
    rw [rest] at head
    exact .inr (tail_head n ended head)
  | cons d ds =>
    rw [rest] at head
    cases head
    exact .inl (n.legal c (by rw [rest]; exact .tail _ (.head _)))

theorem second_notX (ended : Ended following) {c : Char} (head : (n.digits ++ n.tail following).head? = some c) :
    c.toLower ≠ 'x' := by
  intro lower
  rcases toLower_letter (n := 88) rfl lower with rfl | rfl
  · rcases second_head n ended head with digit | (other | other | other | other) | plain
    · cases digit
    · cases other
    · cases other
    · cases other
    · cases other
    · cases plain
  · rcases second_head n ended head with digit | (other | other | other | other) | plain
    · cases digit
    · cases other
    · cases other
    · cases other
    · cases other
    · cases plain

theorem noHexPrefix (ended : Ended following) :
    startsAnyCase ['0','x'] (n.lead :: (n.digits ++ n.tail following)) = false := by
  apply Bool.eq_false_iff.mpr
  intro starts
  obtain ⟨c,d,rest,same,_,lower⟩ := startsAnyCase_two.mp starts
  injection same with _ same
  exact second_notX n ended (by rw [same]; rfl) lower

theorem spelling_parts : n.spelling ++ following = n.notation_.start ++ n.lead :: (n.digits ++ n.tail following) := by
  simp [IntegerLiteral.spelling,IntegerLiteral.tail]

theorem binary_digit {c : Char} (digit : isDigit 2 c = true) : c = '0' ∨ c = '1' := by
  unfold isDigit digitValue at digit
  split at digit
  · rename_i range
    have low : 48 ≤ c.toNat := UInt32.le_iff_toNat_le.mp range.1
    have small : c.toNat - 48 < 2 := of_decide_eq_true digit
    have codes : c.toNat = 48 ∨ c.toNat = 49 := by omega
    exact codes.imp char_of_toNat char_of_toNat
  · split at digit
    · have small : c.toNat - 97 + 10 < 2 := of_decide_eq_true digit
      omega
    · split at digit
      · have small : c.toNat - 65 + 10 < 2 := of_decide_eq_true digit
        omega
      · cases digit

theorem octal_notB (octal : n.notation_ = .octal) (ended : Ended following) {c : Char}
    (head : (n.digits ++ n.tail following).head? = some c) : c.toLower ≠ 'b' := by
  intro lower
  have which := second_head n ended head
  rw [octal] at which
  rcases toLower_letter (n := 66) rfl lower with rfl | rfl
  · rcases which with digit | (other | other | other | other) | plain
    · cases digit
    · cases other
    · cases other
    · cases other
    · cases other
    · cases plain
  · rcases which with digit | (other | other | other | other) | plain
    · cases digit
    · cases other
    · cases other
    · cases other
    · cases other
    · cases plain

theorem readBase_exact (ended : Ended following) :
    readBase (n.spelling ++ following) = (n.notation_.base,n.lead :: (n.digits ++ n.tail following)) := by
  have lead := n.legal n.lead (.head _)
  have leads := n.leads
  have noX := noHexPrefix n ended
  rw [spelling_parts]
  cases kind : n.notation_ with
  | decimal =>
    rw [kind] at leads
    have other : n.lead.toLower ≠ '0' := fun lower => leads (toLower_zero lower)
    have other' : n.lead ≠ '0' := leads
    simp [Notation.start,Notation.base,readBase,startsAnyCase_head other,other']
  | octal =>
    rw [kind] at leads
    have zero : n.lead = '0' := leads
    have noB : startsAnyCase ['0','b'] (n.lead :: (n.digits ++ n.tail following)) = false := by
      apply Bool.eq_false_iff.mpr
      intro starts
      obtain ⟨c,d,rest,same,_,lower⟩ := startsAnyCase_two.mp starts
      injection same with _ same
      exact octal_notB n kind ended (by rw [same]; rfl) lower
    simp only [Notation.start,Notation.base,readBase,List.nil_append,noX,noB,Bool.false_and,Bool.false_eq_true,if_false]
    simp [zero]
  | hexadecimal upper =>
    rw [kind] at lead
    have digit : isDigit 16 n.lead = true := lead
    cases upper <;> simp [Notation.start,Notation.base,readBase,startsAnyCase,digit]
  | binary upper =>
    rw [kind] at lead
    rcases binary_digit lead with zero | one
    · cases upper <;> simp [Notation.start,Notation.base,readBase,startsAnyCase,zero]
    · cases upper <;> simp [Notation.start,Notation.base,readBase,startsAnyCase,one]

theorem strtoull_exact (ended : Ended following) :
    strtoull n.notation_.base (n.lead :: (n.digits ++ n.tail following)) =
      (min n.value (2 ^ 64 - 1),n.tail following,decide (2 ^ 64 ≤ n.value)) := by
  have digits : ∀ c ∈ n.lead :: n.digits, isDigit n.notation_.base c = true := n.legal
  have taken : (n.lead :: (n.digits ++ n.tail following)).takeWhile (isDigit n.notation_.base) =
      n.lead :: n.digits := by
    rw [← List.cons_append,List.takeWhile_append_of_pos digits,tail_nondigit n ended,List.append_nil]
  have dropped : (n.lead :: (n.digits ++ n.tail following)).dropWhile (isDigit n.notation_.base) =
      n.tail following := by
    have whole := List.takeWhile_append_dropWhile (p := isDigit n.notation_.base)
      (l := n.lead :: (n.digits ++ n.tail following))
    rw [taken,List.cons_append] at whole
    injection whole with _ whole
    exact List.append_cancel_left whole
  unfold strtoull
  rw [noHexPrefix n ended,Bool.false_and]
  simp only [Bool.false_eq_true,and_false,if_false,taken,dropped]
  rfl

theorem quiet_suffix : mentionsFloat n.suffix.spelling.length (n.tail following) = false := by
  unfold mentionsFloat IntegerLiteral.tail
  rw [List.take_left' rfl]
  apply List.any_eq_false.mpr
  intro c member
  rcases suffix_member member with rfl | rfl | rfl | rfl <;> decide

theorem convert_parts (ended : Ended following) : convertPpInt (n.spelling ++ following) n.spelling.length =
    if 2 ^ 64 ≤ n.value then .error "integer literal is too large"
    else if n.notation_.base = 10 ∧ n.suffix.flags.u = false ∧ n.value >>> 63 ≠ 0 then
      .error "decimal integer literal is too large for any signed type"
    else .number n.value (inferType n.notation_.base n.suffix.flags n.value) := by
  have suffix : readSuffix (n.tail following) = (n.suffix.flags,following) := readSuffix_exact n.suffix ended
  have behind : (n.spelling ++ following).length - following.length = n.spelling.length := by simp
  have rest : n.spelling.length - ((n.spelling ++ following).length - (n.tail following).length) =
      n.suffix.spelling.length := by
    have parts : (n.tail following).length = n.suffix.spelling.length + following.length := List.length_append
    have inside : n.suffix.spelling.length ≤ n.spelling.length := by
      rw [IntegerLiteral.spelling,List.length_append]
      exact Nat.le_add_left ..
    rw [List.length_append,parts]
    omega
  unfold convertPpInt
  rw [readBase_exact n ended]
  dsimp only
  rw [strtoull_exact n ended]
  dsimp only
  rw [rest,quiet_suffix,suffix]
  dsimp only
  rw [behind]
  by_cases large : 2 ^ 64 ≤ n.value
  · rw [if_pos (decide_eq_true large),if_pos large]
    rfl
  · have whole : min n.value (2 ^ 64 - 1) = n.value := Nat.min_eq_left (by omega)
    rw [if_neg (of_decide_eq_false (decide_eq_false large) ∘ of_decide_eq_true),if_neg large,
      if_neg (fun differs => differs rfl),whole]

end

theorem above_exact (v k : Nat) : (v >>> k != 0) = decide (2 ^ k ≤ v) := by
  rw [Nat.shiftRight_eq_div_pow,Bool.eq_iff_iff,bne_iff_ne,decide_eq_true_eq,ne_eq,Nat.div_eq_zero_iff]
  have positive := Nat.two_pow_pos k
  omega

-- The hexadecimal, octal and binary literals of the type long that need the upper bit of 32.
def Unextended (T : Target) (n : IntegerLiteral) : Prop :=
  T = lp64 ∧ n.notation_ ≠ .decimal ∧ n.suffix.unsigned = none ∧ (∃ upper, n.suffix.long = .long upper) ∧
    2 ^ 31 ≤ n.value ∧ n.value < 2 ^ 32

-- The types as sizes and signs.
def Ty.form (T : Target) (ty : Ty) : Nat × Bool := (ty.size T,ty.isUnsigned)

theorem standard_iff (T : Target) (n : IntegerLiteral) (c : Conversion) : Standard T n c ↔
    match n.types.find? fun ty => ty.holds T n.value with
    | some ty => ∃ ty', c = .number n.value ty' ∧ ty'.form T = ty.form T
    | .none => ∃ message, c = .error message := by
  unfold Standard Ty.form
  cases n.types.find? fun ty => ty.holds T n.value <;> simp

-- Values below 2^64 by how many of 2^31, 2^32 and 2^63 they reach, and the types of the same table.
def reached (v : Nat) : Fin 4 := if v < 2 ^ 31 then 0 else if v < 2 ^ 32 then 1 else if v < 2 ^ 63 then 2 else 3

def Ty.holdsReached (T : Target) (r : Fin 4) (ty : Ty) : Bool :=
  match if ty.isUnsigned then 8 * ty.size T else 8 * ty.size T - 1 with
  | 31 => r < 1
  | 32 => r < 2
  | 63 => r < 3
  | _ => true

def candidates (decimal unsigned : Bool) : Fin 3 → List Ty
  | 0 => if unsigned then [.int true,.long true,.llong true] else
    if decimal then [.int false,.long false,.llong false]
    else [.int false,.int true,.long false,.long true,.llong false,.llong true]
  | 1 => if unsigned then [.long true,.llong true] else
    if decimal then [.long false,.llong false] else [.long false,.long true,.llong false,.llong true]
  | 2 => if unsigned then [.llong true] else if decimal then [.llong false] else [.llong false,.llong true]

def LongSuffix.rank : LongSuffix → Fin 3
  | .none => 0
  | .long _ => 1
  | .longLong _ => 2

-- A number whose value reaches r thresholds, typed by the code.
def inferReached (base : Nat) (unsigned : Bool) (rank : Fin 3) (r : Fin 4) : Ty :=
  inferType base ⟨rank ≠ 0,unsigned,rank = 2⟩ (match r with
    | 0 => 0
    | 1 => 2 ^ 31
    | 2 => 2 ^ 32
    | 3 => 2 ^ 63)

def agreesReached (T : Target) (base : Nat) (unsigned : Bool) (rank : Fin 3) (r : Fin 4) : Bool :=
  match (candidates (base = 10) unsigned rank).find? (·.holdsReached T r) with
  | some ty => !(base = 10 && !unsigned && r = 3) && (inferReached base unsigned rank r).form T == ty.form T
  | none => base = 10 && !unsigned && r = 3

theorem table : ∀ T ∈ [ilp32,lp64], ∀ base ∈ [10,8,16,2], ∀ (unsigned : Bool) (rank : Fin 3) (r : Fin 4),
    agreesReached T base unsigned rank r = !(T = lp64 && base ≠ 10 && !unsigned && rank = 1 && r = 1) := by
  decide

section
variable {T : Target} {v : Nat}

theorem reached_tests (v : Nat) : decide (v < 2 ^ 31) = decide (reached v < 1) ∧
    decide (v < 2 ^ 32) = decide (reached v < 2) ∧ decide (v < 2 ^ 63) = decide (reached v < 3) := by
  unfold reached
  by_cases one : v < 2 ^ 31
  · have two : v < 2 ^ 32 := by omega
    have three : v < 2 ^ 63 := by omega
    simp only [one,two,three,if_true]
    decide
  · by_cases two : v < 2 ^ 32
    · have three : v < 2 ^ 63 := by omega
      simp only [one,two,three,if_true,if_false]
      decide
    · by_cases three : v < 2 ^ 63
      · simp only [one,two,three,if_true,if_false]
        decide
      · simp only [one,two,three,if_false]
        decide

theorem inferType_above {w : Nat} (base : Nat) (s : Suffix) (one : (v >>> 31 != 0) = (w >>> 31 != 0))
    (two : (v >>> 32 != 0) = (w >>> 32 != 0)) (three : (v >>> 63 != 0) = (w >>> 63 != 0)) :
    inferType base s v = inferType base s w := by
  simp only [inferType,one,two,three]

theorem inferReached_exact (base : Nat) (unsigned : Bool) (rank : Fin 3) :
    inferType base ⟨rank ≠ 0,unsigned,rank = 2⟩ v = inferReached base unsigned rank (reached v) := by
  unfold inferReached reached
  by_cases one : v < 2 ^ 31
  · rw [if_pos one]
    apply inferType_above <;> rw [above_exact,above_exact] <;> simp <;> omega
  · rw [if_neg one]
    by_cases two : v < 2 ^ 32
    · rw [if_pos two]
      apply inferType_above <;> rw [above_exact,above_exact] <;> simp <;> omega
    · rw [if_neg two]
      by_cases three : v < 2 ^ 63
      · rw [if_pos three]
        apply inferType_above <;> rw [above_exact,above_exact] <;> simp <;> omega
      · rw [if_neg three]
        apply inferType_above <;> rw [above_exact,above_exact] <;> simp <;> omega

def Ty.isLiteral : Ty → Bool
  | .int _ | .long _ | .llong _ => true
  | _ => false

theorem candidates_literal : ∀ (decimal unsigned : Bool) (rank : Fin 3),
    (candidates decimal unsigned rank).all Ty.isLiteral = true := by
  decide

theorem holds_reached (known : T = ilp32 ∨ T = lp64) (small : v < 2 ^ 64) {ty : Ty} (literal : ty.isLiteral = true) :
    ty.holds T v = ty.holdsReached T (reached v) := by
  obtain ⟨one,two,three⟩ := reached_tests v
  have four : decide (v < 2 ^ 64) = true := decide_eq_true small
  rcases known with rfl | rfl <;> cases ty <;> try cases literal
  case inl.int u => cases u; exacts [one,two]
  case inl.long u => cases u; exacts [one,two]
  case inl.llong u => cases u; exacts [three,four]
  case inr.int u => cases u; exacts [one,two]
  case inr.long u => cases u; exacts [three,four]
  case inr.llong u => cases u; exacts [three,four]

theorem find_reached (known : T = ilp32 ∨ T = lp64) (small : v < 2 ^ 64) (decimal unsigned : Bool)
    (rank : Fin 3) : (candidates decimal unsigned rank).find? (fun ty => ty.holds T v) =
      (candidates decimal unsigned rank).find? (·.holdsReached T (reached v)) := by
  apply List.find?_congr
  intro ty member
  exact holds_reached known small (List.all_eq_true.mp (candidates_literal decimal unsigned rank) ty member)

end

theorem types_candidates (n : IntegerLiteral) :
    n.types = candidates (n.notation_.base = 10) n.suffix.unsigned.isSome n.suffix.long.rank := by
  obtain ⟨kind,lead,digits,leads,legal,⟨unsigned,long,first⟩⟩ := n
  cases kind <;> rcases unsigned with _ | _ <;> cases long <;> rfl

theorem flags_rank (s : IntegerSuffix) : s.flags = ⟨s.long.rank ≠ 0,s.unsigned.isSome,s.long.rank = 2⟩ := by
  obtain ⟨unsigned,long,first⟩ := s
  cases long <;> rfl

theorem reached_top (v : Nat) : v >>> 63 ≠ 0 ↔ reached v = 3 := by
  have test : v >>> 63 ≠ 0 ↔ ¬v < 2 ^ 63 := by
    rw [← bne_iff_ne,above_exact,decide_eq_true_eq]
    omega
  rw [test]
  unfold reached
  by_cases one : v < 2 ^ 31
  · have three : v < 2 ^ 63 := by omega
    simp only [one,three,if_true]
    decide
  · by_cases two : v < 2 ^ 32
    · have three : v < 2 ^ 63 := by omega
      simp only [one,two,three,if_true,if_false]
      decide
    · by_cases three : v < 2 ^ 63
      · simp only [one,two,three,if_true,if_false]
        decide
      · simp only [one,two,three,if_false]
        decide

-- Where the literal is refused, and where it has the type.
theorem outcome_agrees {T : Target} {found : Option Ty} {inferred : Ty} {v : Nat} {message : String} (reject : Bool) :
    (match found with
    | some ty => ∃ ty', (if reject then Conversion.error message else .number v inferred) = .number v ty' ∧
        ty'.form T = ty.form T
    | .none => ∃ message', (if reject then Conversion.error message else .number v inferred) = .error message') ↔
    (match found with
    | some ty => !reject && inferred.form T == ty.form T
    | .none => reject) = true := by
  cases found <;> cases reject <;> simp

section
variable (n : IntegerLiteral) {T : Target} {following : List Char}

-- A value below 2^64: the table decides.
theorem standard_small (known : T = ilp32 ∨ T = lp64) (small : n.value < 2 ^ 64) (ended : Ended following) :
    Standard T n (convertPpInt (n.spelling ++ following) n.spelling.length) ↔
      agreesReached T n.notation_.base n.suffix.unsigned.isSome n.suffix.long.rank (reached n.value) = true := by
  have unsigned : n.suffix.flags.u = n.suffix.unsigned.isSome := by rw [flags_rank]
  have inferred := inferReached_exact (v := n.value) n.notation_.base n.suffix.unsigned.isSome n.suffix.long.rank
  have reject : (n.notation_.base = 10 ∧ n.suffix.flags.u = false ∧ n.value >>> 63 ≠ 0) ↔
      (n.notation_.base = 10 && !n.suffix.unsigned.isSome && reached n.value = 3) = true := by
    rw [reached_top,unsigned]
    simp [and_assoc]
  rw [← flags_rank] at inferred
  rw [standard_iff,convert_parts n ended,if_neg (Nat.not_le.mpr small),types_candidates,find_reached known small,
    inferred]
  simp only [reject]
  exact outcome_agrees _

-- A value from 2^64 on has no type, and is refused.
theorem standard_large (known : T = ilp32 ∨ T = lp64) (large : 2 ^ 64 ≤ n.value) (ended : Ended following) :
    Standard T n (convertPpInt (n.spelling ++ following) n.spelling.length) := by
  have none_holds : n.types.find? (fun ty => ty.holds T n.value) = none := by
    apply List.find?_eq_none.mpr
    intro ty member
    rw [types_candidates] at member
    have literal := List.all_eq_true.mp (candidates_literal _ _ _) ty member
    have beyond : ∀ e ≤ 64, ¬n.value < 2 ^ e := fun e fits => by
      have bound : 2 ^ e ≤ 2 ^ 64 := Nat.pow_le_pow_right (by decide) fits
      omega
    rcases known with rfl | rfl <;> cases ty <;> (try cases literal) <;>
      exact fun holds => beyond _ (by cases ‹Bool› <;> decide) (of_decide_eq_true holds)
  rw [standard_iff,convert_parts n ended,if_pos large,none_holds]
  exact ⟨_,rfl⟩

theorem reached_one (v : Nat) : reached v = 1 ↔ 2 ^ 31 ≤ v ∧ v < 2 ^ 32 := by
  unfold reached
  by_cases one : v < 2 ^ 31
  · rw [if_pos one]
    exact iff_of_false (by decide) (by omega)
  · rw [if_neg one]
    by_cases two : v < 2 ^ 32
    · rw [if_pos two]
      exact iff_of_true rfl ⟨by omega,two⟩
    · rw [if_neg two]
      refine iff_of_false ?_ (by omega)
      split <;> decide

theorem base_listed : n.notation_.base ∈ [10,8,16,2] := by
  cases n.notation_ <;> simp [Notation.base]

theorem base_decimal : n.notation_.base = 10 ↔ n.notation_ = .decimal := by
  cases n.notation_ <;> simp [Notation.base]

theorem unsigned_none : n.suffix.unsigned = .none ↔ n.suffix.unsigned.isSome = false := by
  cases n.suffix.unsigned <;> simp

theorem rank_long : n.suffix.long.rank = 1 ↔ ∃ upper, n.suffix.long = .long upper := by
  cases n.suffix.long <;> simp [LongSuffix.rank]

end

-- For every literal: the value and type of the standard, or a refusal where there is none,
-- but for the literals that stay 32 bits wide where long has 64.
theorem integer_literals (T : Target) (known : T = ilp32 ∨ T = lp64) (n : IntegerLiteral) (following : List Char)
    (ended : Ended following) :
    Standard T n (convertPpInt (n.spelling ++ following) n.spelling.length) ↔ ¬Unextended T n := by
  by_cases large : 2 ^ 64 ≤ n.value
  · refine iff_of_true (standard_large n known large ended) ?_
    rintro ⟨_,_,_,_,_,bound⟩
    omega
  · have listed : T ∈ [ilp32,lp64] := by simpa using known
    rw [standard_small n known (Nat.lt_of_not_le large) ended,table T listed _ (base_listed n)]
    unfold Unextended
    have odd : n.notation_ ≠ .decimal ↔ n.notation_.base ≠ 10 := not_congr (base_decimal n).symm
    rw [← rank_long,← reached_one,odd,unsigned_none]
    grind

namespace Controls

-- 0x80000000L;
def wideHex : IntegerLiteral :=
  ⟨.hexadecimal false,'8',['0','0','0','0','0','0','0'],trivial,List.all_eq_true.mp rfl,⟨.none,.long true,false⟩⟩

theorem semicolon_ended : Ended [';'] := by
  intro c same
  cases same
  rfl

-- On x86-64 it is an unsigned long, although long holds it.
theorem wide_hex_unsigned :
    ¬Standard lp64 wideHex (convertPpInt (wideHex.spelling ++ [';']) wideHex.spelling.length) := by
  rw [standard_small wideHex (.inr rfl) (by decide) semicolon_ended]
  decide

end Controls

theorem integer_literals_hex :
    Standard ilp32 Controls.wideHex
      (convertPpInt (Controls.wideHex.spelling ++ [';']) Controls.wideHex.spelling.length) :=
  (integer_literals ilp32 (.inl rfl) Controls.wideHex [';'] Controls.semicolon_ended).mpr
    fun bad => absurd bad.1 (by decide)

end SandboxStack.Cc
