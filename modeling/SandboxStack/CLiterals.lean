import Mathlib

namespace SandboxStack.Lexing

abbrev Byte := BitVec 8

-- What compilers differ in: whether trigraphs are replaced, and whether a
-- carriage return ends a line.
structure Dialect where
  trigraphs : Bool
  returns : Bool

def Dialect.newline (d : Dialect) (b : Byte) : Bool := b == 10 || (b == 13 && d.returns)

-- What ?? and the byte stand for.
def trigraph (b : Byte) : Option Byte :=
  match Char.ofNat b.toNat with
  | '=' => some 0x23
  | '(' => some 0x5B
  | '/' => some 0x5C
  | ')' => some 0x5D
  | '\'' => some 0x5E
  | '<' => some 0x7B
  | '!' => some 0x7C
  | '>' => some 0x7D
  | '-' => some 0x7E
  | _ => none

-- Translation phase 1.
def replaced : List Byte → List Byte
  | a :: b :: c :: rest =>
    match (if a = 63 ∧ b = 63 then trigraph c else none) with
    | some r => r :: replaced rest
    | none => a :: replaced (b :: c :: rest)
  | short => short

-- Translation phase 2: a line that ends in a backslash goes on.
def spliced (d : Dialect) : List Byte → List Byte
  | a :: b :: rest => if a = 92 ∧ d.newline b = true then spliced d rest else a :: spliced d (b :: rest)
  | short => short

def logical (d : Dialect) (text : List Byte) : List Byte := spliced d (if d.trigraphs then replaced text else text)

-- ---- string literals ----

def simpleEscape (b : Byte) : Option Byte :=
  match Char.ofNat b.toNat with
  | '\'' => some 0x27
  | '"' => some 0x22
  | '?' => some 0x3F
  | '\\' => some 0x5C
  | 'a' => some 7
  | 'b' => some 8
  | 'f' => some 12
  | 'n' => some 10
  | 'r' => some 13
  | 't' => some 9
  | 'v' => some 11
  | _ => none

def digitValue (b : Byte) : Nat :=
  if 48 ≤ b ∧ b ≤ 57 then b.toNat - 48 else if 97 ≤ b ∧ b ≤ 102 then b.toNat - 87 else if 65 ≤ b ∧ b ≤ 70 then b.toNat - 55 else 16

def octal (b : Byte) : Bool := digitValue b < 8
def hex (b : Byte) : Bool := digitValue b < 16
def number (base : Nat) (digits : List Byte) : Nat := digits.foldl (fun n b => n * base + digitValue b) 0

def utf8 (c : Nat) : List Byte :=
  let follow (shift : Nat) : Byte := BitVec.ofNat 8 (0x80 + c / 2 ^ shift % 64)
  if c < 0x80 then [BitVec.ofNat 8 c]
  else if c < 0x800 then [BitVec.ofNat 8 (0xC0 + c / 2 ^ 6),follow 0]
  else if c < 0x10000 then [BitVec.ofNat 8 (0xE0 + c / 2 ^ 12),follow 6,follow 0]
  else [BitVec.ofNat 8 (0xF0 + c / 2 ^ 18 % 8),follow 12,follow 6,follow 0]

def universal (length : Nat) (text : List Byte) : Option (List Byte × List Byte) :=
  if (text.take length).length = length ∧ (text.take length).all hex then some (utf8 (number 16 (text.take length)),text.drop length)
  else none

-- The bytes that an escape sequence stands for, without its backslash, and what follows.
def escape : List Byte → Option (List Byte × List Byte)
  | [] => none
  | b :: rest =>
    match simpleEscape b with
    | some v => some ([v],rest)
    | none =>
      if octal b then
        let digits := ((b :: rest).take 3).takeWhile octal
        some ([BitVec.ofNat 8 (number 8 digits)],(b :: rest).drop digits.length)
      else if b = 120 ∧ rest.takeWhile hex ≠ [] then some ([BitVec.ofNat 8 (number 16 (rest.takeWhile hex))],rest.dropWhile hex)
      else if b = 117 then universal 4 rest
      else if b = 85 then universal 8 rest
      else none

section
variable {d : Dialect} {text rest value after name : List Byte} {b : Byte}

theorem utf8_length (c : Nat) : (utf8 c).length ≤ 4 := by
  unfold utf8
  split
  · simp
  · split
    · simp
    · split <;> simp

theorem universal_shortens {length : Nat} (four : 4 ≤ length) (stands : universal length text = some (value,rest)) :
    value.length + rest.length ≤ text.length := by
  unfold universal at stands
  split at stands
  · rename_i digits
    cases stands
    have bytes := utf8_length (number 16 (text.take length))
    have taken := digits.1
    rw [List.length_take] at taken
    rw [List.length_drop]
    omega
  · cases stands

theorem escape_shortens (stands : escape text = some (value,rest)) : value.length + rest.length ≤ text.length := by
  cases text with
  | nil => cases stands
  | cons b text =>
    rw [escape] at stands
    cases simple : simpleEscape b with
    | some v =>
      rw [simple] at stands
      cases stands
      rw [List.length_cons,List.length_cons,List.length_nil]
      omega
    | none =>
      rw [simple] at stands
      dsimp only at stands
      split at stands
      · rename_i first
        cases stands
        have some_digit : 1 ≤ (((b :: text).take 3).takeWhile octal).length := by
          rw [List.take_succ_cons,List.takeWhile_cons_of_pos first]
          exact Nat.succ_le_succ (Nat.zero_le _)
        rw [List.length_drop,List.length_cons,List.length_cons,List.length_nil]
        omega
      · split at stands
        · cases stands
          have shorter := (List.dropWhile_suffix hex (l := text)).length_le
          rw [List.length_cons,List.length_cons,List.length_nil]
          omega
        · rw [List.length_cons]
          split at stands
          · exact Nat.le_succ_of_le (universal_shortens (by decide) stands)
          · split at stands
            · exact Nat.le_succ_of_le (universal_shortens (by decide) stands)
            · cases stands

end

-- The value of a string literal from the byte after its first quote on, and what
-- follows the literal.
def literal (d : Dialect) (text : List Byte) : Option (List Byte × List Byte) :=
  match text with
  | [] => none
  | b :: rest =>
    if b = 34 then some ([],rest)
    else if d.newline b then none
    else if b = 92 then
      match _stands : escape rest with
      | none => none
      | some (v,rest) => (literal d rest).map fun (value,after) => (v ++ value,after)
    else (literal d rest).map fun (value,after) => (b :: value,after)
  termination_by text.length
  decreasing_by
    · have shorter := escape_shortens _stands
      simp only [List.length_cons]
      omega
    · simp

section
variable {d : Dialect} {text rest value after name x z : List Byte} {a b : Byte}

theorem replaced_shortens (text : List Byte) :
    (replaced text).length ≤ text.length ∧ ((replaced text).length = text.length → replaced text = text) := by
  induction text using replaced.induct with
  | case1 a b c rest r found ih =>
    rw [replaced,found]
    simp only [List.length_cons]
    exact ⟨by omega,fun same => by omega⟩
  | case2 a b c rest none ih =>
    rw [replaced,none]
    simp only [List.length_cons] at ih ⊢
    exact ⟨by omega,fun same => congrArg (a :: ·) (ih.2 (by omega))⟩
  | case3 short other =>
    rw [replaced]
    · exact ⟨Nat.le_refl _,fun _ => rfl⟩
    · exact other

theorem spliced_shortens (d : Dialect) (text : List Byte) :
    (spliced d text).length ≤ text.length ∧ ((spliced d text).length = text.length → spliced d text = text) := by
  induction text using spliced.induct d with
  | case1 a b rest splice ih =>
    rw [spliced,if_pos splice]
    simp only [List.length_cons]
    exact ⟨by omega,fun same => by omega⟩
  | case2 a b rest other ih =>
    rw [spliced,if_neg other]
    simp only [List.length_cons] at ih ⊢
    exact ⟨by omega,fun same => congrArg (a :: ·) (ih.2 (by omega))⟩
  | case3 short other =>
    rw [spliced]
    · exact ⟨Nat.le_refl _,fun _ => rfl⟩
    · exact other

-- What is as long as before is as before.
theorem logical_shortens (d : Dialect) (text : List Byte) : (logical d text).length ≤ text.length ∧
    ((logical d text).length = text.length → logical d text = text ∧ (d.trigraphs = true → replaced text = text)) := by
  unfold logical
  cases d.trigraphs with
  | false =>
    have splices := spliced_shortens d text
    exact ⟨splices.1,fun same => ⟨splices.2 same,fun absent => by cases absent⟩⟩
  | true =>
    simp only [if_true]
    have replaces := replaced_shortens text
    have splices := spliced_shortens d (replaced text)
    refine ⟨by omega,fun same => ?_⟩
    have first := replaces.2 (by omega)
    have second := splices.2 (by omega)
    rw [first] at second
    exact ⟨by rw [first]; exact second,fun _ => first⟩

-- A byte that is no question mark starts no trigraph.
theorem replaced_cons (other : a ≠ 63) : replaced (a :: rest) = a :: replaced rest := by
  match rest with
  | [] => rfl
  | [b] => rfl
  | b :: c :: rest =>
    have none : (if a = 63 ∧ b = 63 then trigraph c else none) = none := if_neg fun both => other both.1
    rw [replaced,none]

theorem replaced_quote (x z : List Byte) : replaced (x ++ 34 :: z) = replaced x ++ 34 :: replaced z := by
  have quote : replaced (34 :: z) = 34 :: replaced z := replaced_cons (by decide)
  have before : ∀ a, replaced (a :: 34 :: z) = a :: 34 :: replaced z := by
    intro a
    cases z with
    | nil => rfl
    | cons c z =>
      have none : (if a = 63 ∧ (34 : Byte) = 63 then trigraph c else none) = none := if_neg fun both => absurd both.2 (by decide)
      rw [replaced,none,quote]
  induction x using replaced.induct with
  | case1 a b c rest r found ih =>
    rw [List.cons_append,List.cons_append,List.cons_append,replaced,found,replaced,found]
    exact congrArg (r :: ·) ih
  | case2 a b c rest none ih =>
    rw [List.cons_append,List.cons_append,List.cons_append,replaced,none,replaced,none]
    exact congrArg (a :: ·) ih
  | case3 short other =>
    match short with
    | [] => exact quote
    | [a] => exact before a
    | [a,b] =>
      have none : (if a = 63 ∧ b = 63 then trigraph 34 else none) = none := by
        split <;> rfl
      show replaced (a :: b :: 34 :: z) = _
      rw [replaced,none,before]
      rfl
    | a :: b :: c :: rest => exact absurd rfl (other a b c rest)

theorem spliced_cons (other : a ≠ 92) : spliced d (a :: rest) = a :: spliced d rest := by
  cases rest with
  | nil => rfl
  | cons b rest => rw [spliced,if_neg fun both => other both.1]

theorem spliced_quote (x z : List Byte) : spliced d (x ++ 34 :: z) = spliced d x ++ 34 :: spliced d z := by
  have quote : spliced d (34 :: z) = 34 :: spliced d z := spliced_cons (by decide)
  induction x using spliced.induct d with
  | case1 a b rest splice ih =>
    rw [List.cons_append,List.cons_append,spliced,if_pos splice,spliced,if_pos splice]
    exact ih
  | case2 a b rest other ih =>
    rw [List.cons_append,List.cons_append,spliced,if_neg other,spliced,if_neg other]
    exact congrArg (a :: ·) ih
  | case3 short other =>
    match short with
    | [] => exact quote
    | [a] =>
      show spliced d (a :: 34 :: z) = _
      rw [spliced,if_neg fun both => absurd both.2 Bool.false_ne_true,quote]
      rfl
    | a :: b :: rest => exact absurd rfl (other a b rest)

-- A quote is not changed, and what is before it and after it is apart.
theorem logical_quote (d : Dialect) (x z : List Byte) : logical d (x ++ 34 :: z) = logical d x ++ 34 :: logical d z := by
  unfold logical
  split
  · rw [replaced_quote,spliced_quote]
  · exact spliced_quote x z

-- Nor is text with neither question marks nor backslashes.
theorem logical_clean (clean : ∀ b ∈ x, b ≠ 63 ∧ b ≠ 92) (z : List Byte) : logical d (x ++ z) = x ++ logical d z := by
  induction x with
  | nil => rfl
  | cons a x ih =>
    have own := clean a (.head _)
    have tail := ih fun b inside => clean b (.tail _ inside)
    unfold logical at tail ⊢
    rw [List.cons_append]
    split at tail <;> rename_i dialect
    · rw [if_pos dialect,if_pos dialect,replaced_cons own.1,spliced_cons own.2,tail]
      rfl
    · rw [if_neg dialect,if_neg dialect,spliced_cons own.2,tail]
      rfl

end

-- A name that a string literal holds as it is.
structure Plain (d : Dialect) (name : List Byte) : Prop where
  quote : 34 ∉ name
  backslash : 92 ∉ name
  newline : ∀ b ∈ name, d.newline b = false

structure Faithful (d : Dialect) (name : List Byte) : Prop extends Plain d name where
  trigraph : d.trigraphs = true → ∀ c, (Lexing.trigraph c).isSome = true → ¬[63,63,c] <:+: name

section
variable {d : Dialect} {text rest value after name x z : List Byte} {a b : Byte}

theorem literal_plain (plain : Plain d name) : literal d (name ++ 34 :: after) = some (name,after) := by
  induction name with
  | nil =>
    rw [List.nil_append,literal,if_pos rfl]
  | cons b name ih =>
    have tail : Plain d name := ⟨fun inside => plain.quote (.tail _ inside),fun inside => plain.backslash (.tail _ inside),
      fun c inside => plain.newline c (.tail _ inside)⟩
    have quote : b ≠ 34 := fun same => plain.quote (same ▸ .head _)
    have backslash : b ≠ 92 := fun same => plain.backslash (same ▸ .head _)
    have newline : d.newline b ≠ true := by rw [plain.newline b (.head _)]; decide
    rw [List.cons_append,literal,if_neg quote,if_neg newline,if_neg backslash,ih tail]
    rfl

-- A literal has no more bytes than its text, and as many only when the text is its value.
theorem literal_shortens (stands : literal d text = some (value,after)) : value.length + 1 + after.length ≤ text.length ∧
    (value.length + 1 + after.length = text.length → text = value ++ 34 :: after ∧ Plain d value) := by
  induction text using literal.induct d generalizing value after with
  | case1 =>
    rw [literal] at stands
    cases stands
  | case2 rest =>
    rw [literal,if_pos rfl] at stands
    cases stands
    simp only [List.length_cons,List.length_nil]
    exact ⟨by omega,fun _ => ⟨rfl,List.not_mem_nil,List.not_mem_nil,fun b inside => by cases inside⟩⟩
  | case3 b rest other newline =>
    rw [literal,if_neg other,if_pos newline] at stands
    cases stands
  | case4 rest none other newline =>
    rw [literal,if_neg other,if_neg newline,if_pos rfl] at stands
    split at stands
    · cases stands
    · rename_i found
      rw [none] at found
      cases found
  | case5 rest v rest' found other newline ih =>
    rw [literal,if_neg other,if_neg newline,if_pos rfl] at stands
    split at stands
    · cases stands
    · rename_i found'
      cases found.symm.trans found'
      obtain ⟨⟨inner,after⟩,reads,same⟩ := Option.map_eq_some_iff.mp stands
      cases same
      have escapes := escape_shortens found
      have shorter := (ih reads).1
      rw [List.length_append,List.length_cons]
      exact ⟨by omega,fun full => by omega⟩
  | case6 b rest other newline backslash ih =>
    rw [literal,if_neg other,if_neg newline,if_neg backslash] at stands
    obtain ⟨⟨value,after⟩,inner,same⟩ := Option.map_eq_some_iff.mp stands
    cases same
    obtain ⟨shorter,exact⟩ := ih inner
    simp only [List.length_cons]
    refine ⟨by omega,fun full => ?_⟩
    obtain ⟨whole,plain⟩ := exact (by omega)
    refine ⟨congrArg (b :: ·) whole,?_,?_,?_⟩
    · exact fun inside => (List.mem_cons.mp inside).elim (fun same => other same.symm) plain.quote
    · exact fun inside => (List.mem_cons.mp inside).elim (fun same => backslash same.symm) plain.backslash
    · intro c inside
      rcases List.mem_cons.mp inside with rfl | inside
      · exact Bool.eq_false_iff.mpr newline
      · exact plain.newline c inside

theorem Plain.faithful (plain : Plain d name) (unmarked : 63 ∉ name) : Faithful d name :=
  ⟨plain,fun _ _ _ inside => unmarked (inside.subset (.head _))⟩

theorem replaced_same : replaced name = name ↔ ∀ c, (trigraph c).isSome = true → ¬[63,63,c] <:+: name := by
  induction name using replaced.induct with
  | case1 a b c rest r found ih =>
    have shorter := (replaced_shortens rest).1
    refine ⟨fun same => ?_,fun absent => ?_⟩
    · rw [replaced,found] at same
      have lengths := congrArg List.length same
      simp only [List.length_cons] at lengths
      omega
    · split at found
      · rename_i marks
        refine absurd ?_ (absent c (by rw [found]; rfl))
        rw [marks.1,marks.2]
        exact ⟨[],rest,rfl⟩
      · cases found
  | case2 a b c rest none ih =>
    rw [replaced,none]
    constructor
    · intro same e stands inside
      have tail := ih.mp (List.cons.inj same).2
      rcases List.infix_cons_iff.mp inside with first | later
      · obtain ⟨more,same⟩ := first
        cases same
        rw [if_pos ⟨rfl,rfl⟩] at none
        rw [none] at stands
        cases stands
      · exact tail e stands later
    · intro absent
      exact congrArg (a :: ·) (ih.mpr fun e stands inside => absent e stands (List.infix_cons inside))
  | case3 short other =>
    refine ⟨fun _ c _ inside => ?_,fun _ => ?_⟩
    · have three := inside.length_le
      match short with
      | [] | [_] | [_,_] => simp at three
      | a :: b :: c :: rest => exact other a b c rest rfl
    · rw [replaced]
      exact other

theorem spliced_same (backslash : 92 ∉ name) : spliced d name = name := by
  induction name with
  | nil => rfl
  | cons a name ih =>
    rw [spliced_cons fun same => backslash (same ▸ .head _),ih fun inside => backslash (.tail _ inside)]

theorem logical_faithful (faithful : Faithful d name) : logical d name = name := by
  unfold logical
  split
  · rename_i dialect
    rw [replaced_same.mpr (faithful.trigraph dialect),spliced_same faithful.backslash]
  · exact spliced_same faithful.backslash

-- The literal of a name has the name for its value, and ends where it was to end, if the name is faithful.
theorem literal_exact : literal d (logical d (name ++ 34 :: after)) = some (name,logical d after) ↔ Faithful d name := by
  rw [logical_quote]
  constructor
  · intro stands
    have lengths := literal_shortens stands
    have shorter := logical_shortens d name
    rw [List.length_append,List.length_cons] at lengths
    obtain ⟨same,replaces⟩ := shorter.2 (by omega)
    obtain ⟨_,plain⟩ := lengths.2 (by omega)
    exact ⟨plain,fun dialect => replaced_same.mp (replaces dialect)⟩
  · intro faithful
    rw [logical_faithful faithful]
    exact literal_plain faithful.toPlain

end

end SandboxStack.Lexing
