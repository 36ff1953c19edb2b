import Mathlib

namespace SandboxStack.CTokens

-- The tokens of C text. A string literal is kept as it is spelled between its
-- quotes. Trigraphs, character constants and literals with a prefix are left out.
inductive Token where
  | identifier (name : List Char)
  | number (spelling : List Char)
  | string (raw : List Char)
  | punctuator (spelling : List Char)
  deriving DecidableEq, Repr

def Token.spelling : Token → List Char
  | .identifier name => name
  | .number spelling | .punctuator spelling => spelling
  | .string raw => '"' :: raw ++ ['"']

-- Line ends first, then lines that a backslash continues.
def canonicalNewlines : List Char → List Char
  | '\r' :: '\n' :: rest => '\n' :: canonicalNewlines rest
  | '\r' :: rest => '\n' :: canonicalNewlines rest
  | c :: rest => c :: canonicalNewlines rest
  | [] => []

def splice : List Char → List Char
  | '\\' :: '\n' :: rest => splice rest
  | c :: rest => c :: splice rest
  | [] => []

def isSpace (c : Char) : Bool := c == ' ' || c == '\n' || c == '\t' || c == '\x0b' || c == '\x0c'
def isIdentStart (c : Char) : Bool := c.isAlpha || c == '_'
def isIdentPart (c : Char) : Bool := isIdentStart c || c.isDigit
def isPunctuation (c : Char) : Bool := "!#%&()*+,-./:;<=>?[]^\x7b|\x7d~".toList.contains c

def longPunctuators : List (List Char) :=
  ["<<=",">>=","...","==","!=","<=",">=","->","+=","-=","*=","/=","++","--","%=","&=","|=","^=","&&","||","<<",">>","##"].map
    String.toList

inductive Mode where
  | between
  | identifier (acc : List Char)
  | number (acc : List Char)
  | string (raw : List Char)
  | escape (raw : List Char)
  | punctuator (acc : List Char)
  | lineComment
  | blockComment (star : Bool)
  deriving DecidableEq, Repr

-- The first character of a token, or one between tokens.
def Mode.first (c : Char) : Option Mode :=
  if isSpace c then some .between
  else if isIdentStart c then some (.identifier [c])
  else if c.isDigit then some (.number [c])
  else if c = '"' then some (.string [])
  else if isPunctuation c then some (.punctuator [c])
  else none

-- A token that is longer than the text so far.
def extendsPunctuator (acc : List Char) (c : Char) : Bool := longPunctuators.any fun p => (acc ++ [c]).isPrefixOf p

def isPunctuator (acc : List Char) : Bool := acc.length == 1 || longPunctuators.contains acc

def isPrefixed (acc : List Char) (c : Char) : Bool :=
  (c == '"' || c == '\'') && [['L'],['u'],['U'],['u','8']].contains acc

def isExponentSign (acc : List Char) (c : Char) : Bool :=
  (c == '+' || c == '-') && (acc.getLast?.any fun e => ['e','E','p','P'].contains e)

def Mode.next (c : Char) : Mode → Option (List Token × Mode)
  | .between => (Mode.first c).map ([],·)
  | .identifier acc =>
    if isIdentPart c then some ([],.identifier (acc ++ [c]))
    else if isPrefixed acc c then none
    else (Mode.first c).map ([.identifier acc],·)
  | .number acc =>
    if isIdentPart c || c == '.' || isExponentSign acc c then some ([],.number (acc ++ [c]))
    else (Mode.first c).map ([.number acc],·)
  | .string raw =>
    if c = '"' then some ([.string raw],.between)
    else if c = '\\' then some ([],.escape raw)
    else if c = '\n' then none
    else some ([],.string (raw ++ [c]))
  | .escape raw => if c = '\n' then none else some ([],.string (raw ++ ['\\',c]))
  | .punctuator acc =>
    if acc = ['/'] ∧ c = '/' then some ([],.lineComment)
    else if acc = ['/'] ∧ c = '*' then some ([],.blockComment false)
    else if acc = ['.'] ∧ c.isDigit then some ([],.number ['.',c])
    else if extendsPunctuator acc c then some ([],.punctuator (acc ++ [c]))
    else if isPunctuator acc then (Mode.first c).map ([.punctuator acc],·)
    else none
  | .lineComment => some ([],if c = '\n' then .between else .lineComment)
  | .blockComment star => some ([],if star ∧ c = '/' then .between else .blockComment (c == '*'))

def Mode.finish : Mode → Option (List Token)
  | .between | .lineComment => some []
  | .identifier acc => some [.identifier acc]
  | .number acc => some [.number acc]
  | .punctuator acc => if isPunctuator acc then some [.punctuator acc] else none
  | .string _ | .escape _ | .blockComment _ => none

def scan (m : Mode) : List Char → Option (List Token × Mode)
  | [] => some ([],m)
  | c :: rest => do
    let (one,m) ← m.next c
    let (more,m) ← scan m rest
    return (one ++ more,m)

def scanAll (m : Mode) (cs : List Char) : Option (List Token) := do
  let (tokens,m) ← scan m cs
  let last ← m.finish
  return tokens ++ last

def tokens (text : List Char) : Option (List Token) := scanAll .between (splice (canonicalNewlines text))

section
variable {m m' m'' : Mode} {cs cs' : List Char} {ts ts' : List Token}

theorem scan_append (one : scan m cs = some (ts,m')) (two : scan m' cs' = some (ts',m'')) :
    scan m (cs ++ cs') = some (ts ++ ts',m'') := by
  induction cs generalizing m ts with
  | nil =>
    cases one
    exact two
  | cons c rest ih =>
    simp only [scan,Option.bind_eq_bind,Option.pure_def,Option.bind_eq_some_iff,Option.some.injEq] at one
    obtain ⟨⟨first,middle⟩,step,⟨more,last⟩,later,same⟩ := one
    cases same
    simp [scan,step,ih later]

theorem scanAll_of (scanned : scan m cs = some (ts,m')) (finished : m'.finish = some ts') :
    scanAll m cs = some (ts ++ ts') := by
  simp [scanAll,scanned,finished]

theorem scan_number {acc : List Char} (part : ∀ c ∈ cs, isIdentPart c = true) :
    scan (.number acc) cs = some ([],.number (acc ++ cs)) := by
  induction cs generalizing acc with
  | nil => simp [scan]
  | cons c rest ih =>
    have later : scan (.number (acc ++ [c])) rest = some ([],.number (acc ++ [c] ++ rest)) :=
      ih fun d member => part d (.tail _ member)
    simp [scan,Mode.next,part c (.head _),later]

-- Text without backslashes and carriage returns is read as it stands.
theorem canonicalNewlines_plain (plain : '\r' ∉ cs) : canonicalNewlines cs = cs := by
  induction cs with
  | nil => rfl
  | cons c rest ih =>
    have other : c ≠ '\r' := fun same => plain (same ▸ .head _)
    rw [canonicalNewlines,ih fun member => plain (.tail _ member)]
    · intro _ same
      exact absurd same other
    · exact fun same => other same

theorem splice_plain (plain : '\\' ∉ cs) : splice cs = cs := by
  induction cs with
  | nil => rfl
  | cons c rest ih =>
    have other : c ≠ '\\' := fun same => plain (same ▸ .head _)
    rw [splice,ih fun member => plain (.tail _ member)]
    intro _ same
    exact absurd same other

theorem tokens_plain (line : '\r' ∉ cs) (plain : '\\' ∉ cs) : tokens cs = scanAll .between cs := by
  rw [tokens,canonicalNewlines_plain line,splice_plain plain]

end

end SandboxStack.CTokens
