import SandboxStack.CLiterals

namespace SandboxStack.Lexing

-- The preprocessing tokens of a C file.
inductive Token where
  | identifier (name : List Byte)
  | number (digits : List Byte)
  | string (value : List Byte)
  | punctuator (bytes : List Byte)
  deriving DecidableEq

def ascii (text : String) : List Byte := text.toByteArray.data.toList.map UInt8.toBitVec

def letter (b : Byte) : Bool := (65 ≤ b && b ≤ 90) || (97 ≤ b && b ≤ 122) || b == 95
def decimal (b : Byte) : Bool := 48 ≤ b && b ≤ 57
def part (b : Byte) : Bool := letter b || decimal b
def blank (d : Dialect) (b : Byte) : Bool := b == 32 || b == 9 || d.newline b
def exponent (b : Byte) : Bool := b == 69 || b == 101 || b == 80 || b == 112
def sign (b : Byte) : Bool := b == 43 || b == 45

-- A preprocessing number after its first byte, and what follows it.
def numeral : List Byte → List Byte × List Byte
  | e :: s :: rest =>
    if exponent e = true ∧ sign s = true then (e :: s :: (numeral rest).1,(numeral rest).2)
    else if (part e || e == 46) = true then (e :: (numeral (s :: rest)).1,(numeral (s :: rest)).2)
    else ([],e :: s :: rest)
  | [e] => if (part e || e == 46) = true then ([e],[]) else ([],[e])
  | [] => ([],[])

def numeric (b : Byte) (rest : List Byte) : Bool := decimal b || (b == 46 && rest.head?.any decimal)

def comment (b : Byte) (rest : List Byte) : Bool := b == 47 && rest.head?.any (· == 42)
def lineComment (b : Byte) (rest : List Byte) : Bool := b == 47 && rest.head?.any (· == 47)

-- What follows a comment that has begun.
def commentEnd : List Byte → Option (List Byte)
  | a :: b :: rest => if a = 42 ∧ b = 47 then some rest else commentEnd (b :: rest)
  | _ => none

-- The longer ones first.
def punctuators : List (List Byte) :=
  ["%:%:","...","<<=",">>=","->","++","--","<<",">>","<=",">=","==","!=","&&","||","*=","/=","%=","+=","-=","&=","^=","|=","##",
    "<:",":>","<%","%>","%:","[","]","(",")","\x7b","\x7d",".","&","*","+","-","~","!","/","%","<",">","^","|","?",":",";","=",",",
    "#"].map ascii

-- Character constants, comments to the end of the line and literals with a prefix
-- are left out: they have no tokens here.
def lexFrom (d : Dialect) : Nat → List Byte → Option (List Token)
  | _,[] => some []
  | 0,_ => none
  | fuel + 1,b :: rest =>
    if blank d b then lexFrom d fuel rest
    else if letter b then
      if (rest.dropWhile part).head? = some 34 then none
      else (lexFrom d fuel (rest.dropWhile part)).map (.identifier (b :: rest.takeWhile part) :: ·)
    else if numeric b rest then (lexFrom d fuel (numeral rest).2).map (.number (b :: (numeral rest).1) :: ·)
    else if b = 34 then (literal d rest).bind fun p => (lexFrom d fuel p.2).map (.string p.1 :: ·)
    else if comment b rest then (commentEnd rest.tail).bind (lexFrom d fuel)
    else if lineComment b rest then none
    else (punctuators.find? (·.isPrefixOf (b :: rest))).bind fun p =>
      (lexFrom d fuel (rest.drop (p.length - 1))).map (.punctuator p :: ·)

def lex (d : Dialect) (text : List Byte) : Option (List Token) := lexFrom d text.length text

-- The tokens of a file.
def tokens (d : Dialect) (text : List Byte) : Option (List Token) := lex d (logical d text)

-- What a text is read to wherever it stands.
def Reads (d : Dialect) (text : List Byte) (ts : List Token) : Prop :=
  ∀ rest, tokens d (text ++ rest) = (tokens d rest).map (ts ++ ·)

section
variable {d : Dialect} {text rest x y : List Byte} {ts us : List Token} {b c : Byte} {n m : Nat}

theorem numeral_suffix (text : List Byte) : (numeral text).2 <:+ text := by
  induction text using numeral.induct with
  | case1 e s rest both ih =>
    rw [numeral,if_pos both]
    exact ih.trans ((List.suffix_cons s rest).trans (List.suffix_cons e _))
  | case2 e s rest other named ih =>
    rw [numeral,if_neg other,if_pos named]
    exact ih.trans (List.suffix_cons e _)
  | case3 e s rest other stops =>
    rw [numeral,if_neg other,if_neg stops]
  | case4 e named =>
    rw [numeral,if_pos named]
    exact List.nil_suffix
  | case5 e stops =>
    rw [numeral,if_neg stops]
  | case6 => exact List.suffix_refl _

theorem commentEnd_suffix (ends : commentEnd text = some x) : x <:+ text := by
  induction text using commentEnd.induct with
  | case1 a b rest both =>
    rw [commentEnd,if_pos both] at ends
    cases ends
    exact (List.suffix_cons b x).trans (List.suffix_cons a _)
  | case2 a b rest other ih =>
    rw [commentEnd,if_neg other] at ends
    exact (ih ends).trans (List.suffix_cons a _)
  | case3 short other =>
    rw [commentEnd] at ends
    · cases ends
    · exact other

theorem commentEnd_tail (ends : commentEnd text.tail = some x) : x <:+ text :=
  (commentEnd_suffix ends).trans (List.tail_suffix text)

theorem lexFrom_enough (enough : text.length ≤ n) (more : text.length ≤ m) : lexFrom d n text = lexFrom d m text := by
  induction n generalizing m text with
  | zero =>
    cases List.length_eq_zero_iff.mp (Nat.le_zero.mp enough)
    cases m <;> rfl
  | succ n ih =>
    cases text with
    | nil => cases m <;> rfl
    | cons b rest =>
      rw [List.length_cons] at enough more
      obtain ⟨m,rfl⟩ : ∃ k, m = k + 1 := ⟨m - 1,by omega⟩
      have shorter : ∀ {t : List Byte}, t.length ≤ rest.length → lexFrom d n t = lexFrom d m t := fun small =>
        ih (by omega) (by omega)
      rw [lexFrom,lexFrom,shorter (Nat.le_refl _),shorter (List.dropWhile_suffix part (l := rest)).length_le,
        shorter (numeral_suffix rest).length_le]
      congr 4
      · cases found : literal d rest with
        | none => rfl
        | some p =>
          have inside := (@literal_shortens d rest p.1 p.2 found).1
          exact congrArg (Option.map _) (shorter (by omega))
      · congr 1
        · cases found : commentEnd rest.tail with
          | none => rfl
          | some x => exact shorter (commentEnd_tail found).length_le
        · congr 1
          cases punctuators.find? (·.isPrefixOf (b :: rest)) with
          | none => rfl
          | some p => exact congrArg (Option.map _) (shorter (by rw [List.length_drop]; omega))

theorem lex_cons : lex d (b :: rest) =
    if blank d b then lex d rest
    else if letter b then
      if (rest.dropWhile part).head? = some 34 then none
      else (lex d (rest.dropWhile part)).map (.identifier (b :: rest.takeWhile part) :: ·)
    else if numeric b rest then (lex d (numeral rest).2).map (.number (b :: (numeral rest).1) :: ·)
    else if b = 34 then (literal d rest).bind fun p => (lex d p.2).map (.string p.1 :: ·)
    else if comment b rest then (commentEnd rest.tail).bind (lex d)
    else if lineComment b rest then none
    else (punctuators.find? (·.isPrefixOf (b :: rest))).bind fun p =>
      (lex d (rest.drop (p.length - 1))).map (.punctuator p :: ·) := by
  have own : ∀ {t : List Byte}, t.length ≤ rest.length → lexFrom d rest.length t = lex d t := fun small =>
    lexFrom_enough small (Nat.le_refl _)
  show lexFrom d (rest.length + 1) (b :: rest) = _
  rw [lexFrom,own (Nat.le_refl _),own (List.dropWhile_suffix part (l := rest)).length_le,own (numeral_suffix rest).length_le]
  congr 4
  · cases found : literal d rest with
    | none => rfl
    | some p =>
      have inside := (@literal_shortens d rest p.1 p.2 found).1
      exact congrArg (Option.map _) (own (by omega))
  · congr 1
    · cases found : commentEnd rest.tail with
      | none => rfl
      | some x => exact own (commentEnd_tail found).length_le
    · congr 1
      cases punctuators.find? (·.isPrefixOf (b :: rest)) with
      | none => rfl
      | some p => exact congrArg (Option.map _) (own (by rw [List.length_drop]; omega))

theorem Reads.nil : Reads d [] [] := by
  intro rest
  rw [List.nil_append]
  cases tokens d rest <;> rfl

theorem Reads.whole (reads : Reads d text ts) : tokens d text = some ts := by
  have whole := reads []
  have empty : tokens d [] = some [] := by
    unfold tokens logical
    split <;> rfl
  rw [List.append_nil,empty,Option.map_some,List.append_nil] at whole
  exact whole

theorem Reads.append (first : Reads d x ts) (second : Reads d y us) : Reads d (x ++ y) (ts ++ us) := by
  intro rest
  rw [List.append_assoc,first,second,Option.map_map]
  congr 1
  funext more
  exact (List.append_assoc _ _ _).symm

end

-- ---- texts without question marks, backslashes and quotes ----

-- The bytes at which one of these texts may end, since no token goes on after them,
-- and those at which it may end where a name follows.
def closers : List Byte := [123,125,40,41,91,93,44,59,32,10]
def leaders : List Byte := [42,61,38,62,60,33,126]

def Stops (rest : List Byte) (c : Byte) : Prop := c ∈ closers ∨ (c ∈ leaders ∧ ∃ b more, rest = b :: more ∧ part b = true)

section
variable {d : Dialect} {text rest x : List Byte} {ts : List Token} {b c : Byte}

theorem stop_kind (stop : Stops rest c) :
    part c = false ∧ letter c = false ∧ exponent c = false ∧ sign c = false ∧ c ≠ 46 ∧ c ≠ 47 := by
  have known : c ∈ closers ++ leaders := List.mem_append.mpr (stop.imp id And.left)
  have all : ∀ c ∈ closers ++ leaders, part c = false ∧ letter c = false ∧ exponent c = false ∧ sign c = false ∧ c ≠ 46 ∧ c ≠ 47 := by
    decide
  exact all c known

-- No punctuator has a byte of a name, and none goes on after a closer.
theorem punctuator_bytes : (punctuators.all fun p => p.all (!part ·) && p.dropLast.all (!closers.contains ·)) = true := by
  decide

theorem punctuator_kind {p : List Byte} (known : p ∈ punctuators) : (∀ b ∈ p, part b = false) ∧ ∀ c ∈ p.dropLast, c ∉ closers := by
  have own := List.all_eq_true.mp punctuator_bytes p known
  rw [Bool.and_eq_true,List.all_eq_true,List.all_eq_true] at own
  refine ⟨fun b inside => by simpa using own.1 b inside,fun c inside closer => ?_⟩
  have other := own.2 c inside
  rw [List.contains_iff_mem.mpr closer] at other
  cases other

theorem stop_suffix (closed : ∀ c, text.getLast? = some c → Stops rest c) (suffix : x <:+ text) :
    ∀ c, x.getLast? = some c → Stops rest c := by
  intro c last
  obtain ⟨before,rfl⟩ := suffix
  refine closed c ?_
  rw [List.getLast?_append,last]
  rfl

-- The end of the text decides which punctuator it begins with.
theorem punctuator_closed (closed : ∀ c, (b :: x).getLast? = some c → Stops rest c) :
    punctuators.find? (·.isPrefixOf (b :: x ++ rest)) = punctuators.find? (·.isPrefixOf (b :: x)) := by
  refine List.find?_congr fun p known => ?_
  rw [Bool.eq_iff_iff,List.isPrefixOf_iff_prefix,List.isPrefixOf_iff_prefix]
  refine ⟨fun before => ?_,fun inside => inside.trans (List.prefix_append _ rest)⟩
  rcases List.prefix_or_prefix_of_prefix before (List.prefix_append (b :: x) rest) with inside | ⟨more,joined⟩
  · exact inside
  · by_cases whole : more = []
    · rw [← joined,whole,List.append_nil]
    · exfalso
      obtain ⟨c,last⟩ : ∃ c, (b :: x).getLast? = some c := ⟨_,List.getLast?_eq_getLast_of_ne_nil (List.cons_ne_nil _ _)⟩
      rcases closed c last with closer | ⟨_,e,after,rfl,named⟩
      · refine (punctuator_kind known).2 c ?_ closer
        rw [← joined,List.dropLast_append_of_ne_nil whole]
        exact List.mem_append_left _ (List.mem_of_getLast? last)
      · obtain ⟨f,more,rfl⟩ := List.exists_cons_of_ne_nil whole
        rw [← joined,List.prefix_append_right_inj] at before
        cases (List.cons_prefix_cons.mp before).1
        have unnamed := (punctuator_kind known).1 e (by rw [← joined]; exact List.mem_append_right _ (.head _))
        rw [named] at unnamed
        cases unnamed

theorem part_kind (named : part b = true) : b ≠ 63 ∧ b ≠ 92 ∧ b ≠ 34 ∧ b ≠ 46 ∧ sign b = false ∧ blank d b = false := by
  have apart : ∀ c : Byte, part c = false → b ≠ c := fun c other same => by
    rw [← same,named] at other
    cases other
  refine ⟨apart 63 (by decide),apart 92 (by decide),apart 34 (by decide),apart 46 (by decide),?_,?_⟩
  · unfold sign
    rw [beq_false_of_ne (apart 43 (by decide)),beq_false_of_ne (apart 45 (by decide))]
    rfl
  · unfold blank Dialect.newline
    rw [beq_false_of_ne (apart 32 (by decide)),beq_false_of_ne (apart 9 (by decide)),beq_false_of_ne (apart 10 (by decide)),
      beq_false_of_ne (apart 13 (by decide))]
    rfl

theorem logical_named {name : List Byte} (parts : ∀ b ∈ name, part b = true) (z : List Byte) :
    logical d (name ++ z) = name ++ logical d z :=
  logical_clean (fun b inside => ⟨(part_kind (d := d) (parts b inside)).1,(part_kind (d := d) (parts b inside)).2.1⟩) z

-- A byte at which no text may end has another after it.
theorem head_closed (closed : ∀ c, (b :: x).getLast? = some c → Stops rest c) (other : ¬Stops rest b) :
    (x ++ rest).head? = x.head? := by
  cases x with
  | nil => exact absurd (closed b rfl) other
  | cons c x => rfl

theorem numeric_closed (closed : ∀ c, (b :: x).getLast? = some c → Stops rest c) : numeric b (x ++ rest) = numeric b x := by
  unfold numeric
  cases dot : b == 46 with
  | false => rfl
  | true => rw [head_closed closed fun stop => (stop_kind stop).2.2.2.2.1 (eq_of_beq dot)]

theorem slash_closed (closed : ∀ c, (b :: x).getLast? = some c → Stops rest c) (e : Byte) :
    (b == 47 && (x ++ rest).head?.any (· == e)) = (b == 47 && x.head?.any (· == e)) := by
  cases slash : b == 47 with
  | false => rfl
  | true => rw [head_closed closed fun stop => (stop_kind stop).2.2.2.2.2 (eq_of_beq slash)]

theorem commentEnd_append (ends : commentEnd text = some x) : commentEnd (text ++ rest) = some (x ++ rest) := by
  induction text using commentEnd.induct with
  | case1 a b text both =>
    rw [commentEnd,if_pos both] at ends
    cases ends
    rw [List.cons_append,List.cons_append,commentEnd,if_pos both]
  | case2 a b text other ih =>
    rw [commentEnd,if_neg other] at ends
    rw [List.cons_append,List.cons_append,commentEnd,if_neg other]
    exact ih ends
  | case3 short other =>
    rw [commentEnd] at ends
    · cases ends
    · exact other

-- A run of name bytes ends inside the text.
theorem run_closed (closed : ∀ c, (b :: text).getLast? = some c → Stops rest c) (named : part b = true) :
    (text ++ rest).takeWhile part = text.takeWhile part ∧ (text ++ rest).dropWhile part = text.dropWhile part ++ rest ∧
      text.dropWhile part ≠ [] := by
  have stops : text.dropWhile part ≠ [] := by
    intro none
    have all := List.dropWhile_eq_nil_iff.mp none
    obtain ⟨c,last⟩ : ∃ c, (b :: text).getLast? = some c := ⟨_,List.getLast?_eq_getLast_of_ne_nil (List.cons_ne_nil _ _)⟩
    have named' : part c = true :=
      (List.mem_cons.mp (List.mem_of_getLast? last)).elim (fun same => same ▸ named) fun inside => all c inside
    rw [(stop_kind (closed c last)).1] at named'
    cases named'
  refine ⟨?_,?_,stops⟩
  · rw [List.takeWhile_append,if_neg]
    intro whole
    have same := List.takeWhile_append_dropWhile (p := part) (l := text)
    have lengths := congrArg List.length same
    rw [List.length_append,whole] at lengths
    exact stops (List.length_eq_zero_iff.mp (by omega))
  · rw [List.dropWhile_append,if_neg]
    rw [List.isEmpty_iff]
    exact stops

-- So does a number.
theorem numeral_closed (closed : ∀ c, text.getLast? = some c → Stops rest c) (nonempty : text ≠ []) :
    numeral (text ++ rest) = ((numeral text).1,(numeral text).2 ++ rest) := by
  induction text using numeral.induct with
  | case1 e s text both ih =>
    have more : text ≠ [] := by
      rintro rfl
      have none := (stop_kind (closed s rfl)).2.2.2.1
      rw [both.2] at none
      cases none
    rw [List.cons_append,List.cons_append,numeral,numeral,if_pos both,if_pos both,
      ih (stop_suffix closed ((List.suffix_cons s text).trans (List.suffix_cons e _))) more]
  | case2 e s text other named ih =>
    have tail := ih (stop_suffix closed (List.suffix_cons e _)) (List.cons_ne_nil _ _)
    rw [List.cons_append] at tail
    rw [List.cons_append,List.cons_append,numeral,numeral,if_neg other,if_neg other,if_pos named,if_pos named,tail]
  | case3 e s text other stops =>
    rw [List.cons_append,List.cons_append,numeral,numeral,if_neg other,if_neg other,if_neg stops,if_neg stops]
    rfl
  | case4 e named =>
    have none := stop_kind (closed e rfl)
    rw [none.1,Bool.false_or] at named
    exact absurd (eq_of_beq named) none.2.2.2.2.1
  | case5 e stops =>
    have none := (stop_kind (closed e rfl)).2.2.1
    cases rest with
    | nil => rw [List.append_nil,List.append_nil]
    | cons r rest =>
      show numeral (e :: r :: rest) = _
      rw [numeral,numeral,if_neg (by rw [none]; exact fun both => absurd both.1 (by decide)),if_neg stops,if_neg stops]
      rfl
  | case6 => exact absurd rfl nonempty

theorem lex_closed (quote : 34 ∉ text) (closed : ∀ c, text.getLast? = some c → Stops rest c) (reads : lex d text = some ts) :
    lex d (text ++ rest) = (lex d rest).map (ts ++ ·) := by
  induction size : text.length using Nat.strong_induction_on generalizing text ts with
  | h size ih =>
    subst size
    cases text with
    | nil =>
      cases reads
      rw [List.nil_append]
      cases lex d rest <;> rfl
    | cons b text =>
      have later : ∀ {x us}, x <:+ text → lex d x = some us → lex d (x ++ rest) = (lex d rest).map (us ++ ·) := by
        intro x us suffix reads
        have whole := suffix.trans (List.suffix_cons b text)
        exact ih x.length (Nat.lt_succ_of_le suffix.length_le) (fun inside => quote (whole.subset inside)) (stop_suffix closed whole)
          reads rfl
      have joined : ∀ {x us} (t : Token), x <:+ text → lex d x = some us →
          (lex d (x ++ rest)).map (t :: ·) = (lex d rest).map (t :: us ++ ·) := by
        intro x us t suffix reads
        rw [later suffix reads,Option.map_map]
        rfl
      rw [lex_cons] at reads
      rw [List.cons_append,lex_cons]
      by_cases space : blank d b = true
      · rw [if_pos space] at reads ⊢
        exact later (List.suffix_refl _) reads
      rw [if_neg space] at reads ⊢
      by_cases start : letter b = true
      · obtain ⟨taken,dropped,stops⟩ := run_closed closed (show part b = true by rw [part,start]; rfl)
        rw [if_pos start] at reads ⊢
        rw [taken,dropped,List.head?_append_of_ne_nil _ stops]
        split at reads
        · cases reads
        · rename_i other
          rw [if_neg other]
          obtain ⟨us,inner,same⟩ := Option.map_eq_some_iff.mp reads
          cases same
          exact joined _ (List.dropWhile_suffix part) inner
      rw [if_neg start] at reads ⊢
      rw [numeric_closed closed]
      by_cases digit : numeric b text = true
      · have more : text ≠ [] := by
          rintro rfl
          have none := stop_kind (closed b rfl)
          have digit' : decimal b = true := by
            rw [numeric,beq_false_of_ne none.2.2.2.2.1,Bool.false_and,Bool.or_false] at digit
            exact digit
          rw [part,digit',Bool.or_true] at none
          cases none.1
        rw [if_pos digit] at reads ⊢
        rw [numeral_closed (stop_suffix closed (List.suffix_cons b text)) more]
        obtain ⟨us,inner,same⟩ := Option.map_eq_some_iff.mp reads
        cases same
        exact joined _ (numeral_suffix text) inner
      have other : b ≠ 34 := fun same => quote (same ▸ .head _)
      rw [if_neg digit,if_neg other] at reads ⊢
      rw [comment,slash_closed closed,← comment,lineComment,slash_closed closed,← lineComment]
      by_cases slash : comment b text = true
      · rw [if_pos slash] at reads ⊢
        obtain ⟨x,found,inner⟩ := Option.bind_eq_some_iff.mp reads
        have more : text ≠ [] := by
          rintro rfl
          cases found
        rw [List.tail_append_of_ne_nil more,commentEnd_append found]
        exact later (commentEnd_tail found) inner
      rw [if_neg slash] at reads ⊢
      by_cases line : lineComment b text = true
      · rw [if_pos line] at reads
        cases reads
      rw [if_neg line] at reads ⊢
      rw [← List.cons_append,punctuator_closed closed]
      obtain ⟨p,found,rest'⟩ := Option.bind_eq_some_iff.mp reads
      obtain ⟨us,inner,same⟩ := Option.map_eq_some_iff.mp rest'
      cases same
      have matched := List.find?_some found
      have short := (List.isPrefixOf_iff_prefix.mp matched).length_le
      rw [List.length_cons] at short
      rw [found,Option.bind_some,List.drop_append_of_le_length (by omega)]
      exact joined _ (List.drop_suffix _ _) inner

theorem closed_reads (clean : ∀ b ∈ text, b ≠ 63 ∧ b ≠ 92 ∧ b ≠ 34) (closed : ∀ c, text.getLast? = some c → Stops (logical d rest) c)
    (reads : lex d text = some ts) : tokens d (text ++ rest) = (tokens d rest).map (ts ++ ·) := by
  unfold tokens
  rw [logical_clean fun b inside => ⟨(clean b inside).1,(clean b inside).2.1⟩]
  exact lex_closed (fun inside => (clean 34 inside).2.2 rfl) closed reads

end

-- What a text is read to where a name follows it.
def Leads (d : Dialect) (text : List Byte) (ts : List Token) : Prop :=
  ∀ b rest, part b = true → tokens d (text ++ b :: rest) = (tokens d (b :: rest)).map (ts ++ ·)

def checkText (ends : List Byte) (d : Dialect) (text : List Byte) : Bool :=
  text.all (fun b => b != 63 && b != 92 && b != 34) && text.getLast?.all (ends.contains ·) && (lex d text).isSome

-- Read the same way by every compiler, wherever it stands or wherever it stands before a name.
abbrev Sealed (text : List Byte) : Prop := ∀ trigraphs returns : Bool, checkText closers ⟨trigraphs,returns⟩ text = true
abbrev Led (text : List Byte) : Prop := ∀ trigraphs returns : Bool, checkText (closers ++ leaders) ⟨trigraphs,returns⟩ text = true

section
variable {d : Dialect} {text ends : List Byte}

theorem checkText_parts (checked : checkText ends d text = true) : (∀ b ∈ text, b ≠ 63 ∧ b ≠ 92 ∧ b ≠ 34) ∧
    (∀ c, text.getLast? = some c → c ∈ ends) ∧ ∃ ts, lex d text = some ts := by
  unfold checkText at checked
  rw [Bool.and_eq_true,Bool.and_eq_true,List.all_eq_true] at checked
  obtain ⟨⟨clean,closed⟩,reads⟩ := checked
  refine ⟨fun b inside => ?_,fun c last => ?_,Option.isSome_iff_exists.mp reads⟩
  · have own := clean b inside
    rw [Bool.and_eq_true,Bool.and_eq_true,bne_iff_ne,bne_iff_ne,bne_iff_ne] at own
    exact ⟨own.1.1,own.1.2,own.2⟩
  · rw [last] at closed
    exact List.contains_iff_mem.mp closed

theorem Sealed.reads (whole : Sealed text) (d : Dialect) : ∃ ts, Reads d text ts := by
  obtain ⟨clean,closed,ts,reads⟩ := checkText_parts (whole d.trigraphs d.returns)
  exact ⟨ts,fun rest => closed_reads clean (fun c last => .inl (closed c last)) reads⟩

theorem Led.leads (whole : Led text) (d : Dialect) : ∃ ts, Leads d text ts := by
  obtain ⟨clean,closed,ts,reads⟩ := checkText_parts (whole d.trigraphs d.returns)
  refine ⟨ts,fun b rest named => closed_reads clean (fun c last => ?_) reads⟩
  refine (List.mem_append.mp (closed c last)).imp id fun leader => ⟨leader,b,logical d rest,?_,named⟩
  exact @logical_named d [b] (fun e inside => List.mem_singleton.mp inside ▸ named) rest

end

-- ---- words ----

-- The bytes of a name, as one token.
structure Word (name : List Byte) : Prop where
  nonempty : name ≠ []
  parts : ∀ b ∈ name, part b = true

def spelled (name : List Byte) : Token := if name.head?.any letter then .identifier name else .number name

-- A byte that ends a name and starts what follows, and one that ends a number too.
structure Ends (c : Byte) : Prop where
  named : part c = false
  clean : c ≠ 63 ∧ c ≠ 92 ∧ c ≠ 34

structure Separates (c : Byte) : Prop extends Ends c where
  joined : c ≠ 46 ∧ sign c = false

section
variable {d : Dialect} {text rest value after name : List Byte} {ts us : List Token} {b c : Byte}

theorem tokens_cons (plain : c ≠ 63 ∧ c ≠ 92) : tokens d (c :: text) = lex d (c :: logical d text) :=
  congrArg (lex d) (logical_clean (x := [c]) (fun b inside => by cases List.mem_singleton.mp inside; exact plain) text)

theorem exponent_part (other : part c = false) : exponent c = false := by
  revert c
  decide

theorem numeral_word (parts : ∀ e ∈ name, part e = true) (separates : Separates c) (rest : List Byte) :
    numeral (name ++ c :: rest) = (name,c :: rest) := by
  have stops : ¬(part c || c == 46) = true := by
    rw [separates.named,beq_false_of_ne separates.joined.1]
    decide
  induction name with
  | nil =>
    cases rest with
    | nil =>
      show numeral [c] = _
      rw [numeral,if_neg stops]
    | cons s rest =>
      show numeral (c :: s :: rest) = _
      rw [numeral,if_neg (by rw [exponent_part separates.named]; exact fun both => absurd both.1 (by decide)),if_neg stops]
  | cons e name ih =>
    have tail := ih fun b inside => parts b (.tail _ inside)
    obtain ⟨s,more,same,plain⟩ : ∃ s more, name ++ c :: rest = s :: more ∧ sign s = false := by
      cases name with
      | nil => exact ⟨c,rest,rfl,separates.joined.2⟩
      | cons s name => exact ⟨s,_,rfl,(part_kind (d := ⟨true,true⟩) (parts s (.tail _ (.head _)))).2.2.2.2.1⟩
    rw [List.cons_append,same,numeral,if_neg (by rw [plain]; exact fun both => absurd both.2 (by decide)),
      if_pos (by rw [parts e (.head _)]; rfl),← same,tail]

theorem Word.reading (word : Word name) (ends : Ends c) (joined : name.head?.any letter = true ∨ c ≠ 46 ∧ sign c = false)
    (after : Reads d (c :: text) ts) :
    Reads d (name ++ c :: text) (spelled name :: ts) := by
  intro rest
  obtain ⟨b,name,rfl⟩ := List.exists_cons_of_ne_nil word.nonempty
  have parts : ∀ e ∈ name, part e = true := fun e inside => word.parts e (.tail _ inside)
  have stop : logical d (c :: (text ++ rest)) = c :: logical d (text ++ rest) := logical_clean (x := [c])
    (fun e inside => by cases List.mem_singleton.mp inside; exact ⟨ends.clean.1,ends.clean.2.1⟩) _
  have whole : tokens d (b :: name ++ c :: text ++ rest) = lex d (b :: (name ++ c :: logical d (text ++ rest))) := by
    rw [List.append_assoc]
    show lex d (logical d (b :: name ++ c :: (text ++ rest))) = _
    rw [logical_named word.parts,stop]
    rfl
  have follows : lex d (c :: logical d (text ++ rest)) = (tokens d rest).map (ts ++ ·) := by
    rw [← after rest]
    exact (tokens_cons ⟨ends.clean.1,ends.clean.2.1⟩).symm
  have named := word.parts b (.head _)
  have unspaced : blank d b ≠ true := by
    rw [(part_kind named).2.2.2.2.2]
    decide
  rw [whole,lex_cons,if_neg unspaced]
  by_cases start : letter b = true
  · rw [if_pos start,List.dropWhile_append_of_pos parts,List.dropWhile_cons_of_neg (by rw [ends.named]; decide),
      if_neg (fun quote : (c :: logical d (text ++ rest)).head? = some 34 => ends.clean.2.2 (Option.some.inj quote)),
      List.takeWhile_append_of_pos parts,List.takeWhile_cons_of_neg (by rw [ends.named]; decide),List.append_nil,follows,
      Option.map_map]
    have identifier : spelled (b :: name) = .identifier (b :: name) := if_pos start
    rw [identifier]
    rfl
  · have digit : numeric b (name ++ c :: logical d (text ++ rest)) = true := by
      unfold numeric
      rw [part,Bool.eq_false_iff.mpr start,Bool.false_or] at named
      rw [named]
      rfl
    have number : spelled (b :: name) = .number (b :: name) := if_neg start
    rw [if_neg start,if_pos digit,numeral_word parts ⟨ends,joined.resolve_left start⟩,follows,Option.map_map,number]
    rfl

theorem Word.before (word : Word name) (ends : ∃ c u, text = c :: u ∧ Separates c) (after : Reads d text ts) :
    Reads d (name ++ text) (spelled name :: ts) := by
  obtain ⟨c,u,rfl,separates⟩ := ends
  exact word.reading separates.toEnds (.inr separates.joined) after

theorem literal_reading (faithful : Faithful d name) : Reads d (34 :: (name ++ [34])) [.string name] := by
  intro rest
  have blank : blank d 34 = false := rfl
  rw [List.cons_append,List.append_assoc,tokens_cons (by decide)]
  show lex d (34 :: logical d (name ++ 34 :: rest)) = _
  have other : ¬numeric 34 (logical d (name ++ 34 :: rest)) = true := Bool.false_ne_true
  rw [lex_cons,if_neg (by rw [blank]; decide),if_neg (by decide),if_neg other,if_pos rfl,literal_exact.mpr faithful]
  rfl

end

end SandboxStack.Lexing
