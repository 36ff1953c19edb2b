import SandboxStack.CLexing

namespace SandboxStack.Lexing

-- What is written to a C file: text, the bytes of an identifier that holds a name,
-- and a name between quotes.
inductive Part where
  | text (bytes : List Byte)
  | word (bytes : List Byte)
  | quoted (bytes : List Byte)

def Part.bytes : Part → List Byte
  | .text bytes => bytes
  | .word bytes => bytes
  | .quoted bytes => 34 :: (bytes ++ [34])

def render (parts : List Part) : List Byte := parts.flatMap Part.bytes

def Part.word? : Part → Option (List Byte)
  | .word bytes => some bytes
  | _ => none

def Part.quoted? : Part → Option (List Byte)
  | .quoted bytes => some bytes
  | _ => none

def words (parts : List Part) : List (List Byte) := parts.filterMap Part.word?
def quotedNames (parts : List Part) : List (List Byte) := parts.filterMap Part.quoted?

section
variable {ps qs : List Part} {t : List Byte} {α : Type} {f : α → List Part} {xs : List α}

@[simp] theorem words_nil : words [] = [] := rfl
@[simp] theorem words_text : words (.text t :: ps) = words ps := rfl
@[simp] theorem words_word : words (.word t :: ps) = t :: words ps := rfl
@[simp] theorem words_quoted : words (.quoted t :: ps) = words ps := rfl
@[simp] theorem words_append : words (ps ++ qs) = words ps ++ words qs := List.filterMap_append
@[simp] theorem words_flatMap : words (xs.flatMap f) = xs.flatMap fun x => words (f x) := List.filterMap_flatMap

@[simp] theorem quoted_nil : quotedNames [] = [] := rfl
@[simp] theorem quoted_text : quotedNames (.text t :: ps) = quotedNames ps := rfl
@[simp] theorem quoted_word : quotedNames (.word t :: ps) = quotedNames ps := rfl
@[simp] theorem quoted_quoted : quotedNames (.quoted t :: ps) = t :: quotedNames ps := rfl
@[simp] theorem quoted_append : quotedNames (ps ++ qs) = quotedNames ps ++ quotedNames qs := List.filterMap_append
@[simp] theorem quoted_flatMap : quotedNames (xs.flatMap f) = xs.flatMap fun x => quotedNames (f x) := List.filterMap_flatMap

end

-- The parts of two files that are the same but for the words and the quoted names,
-- where no token goes on from one text to the next part.
inductive Laid (d : Dialect) : List Part → List Part → Prop
  | nil : Laid d [] []
  | text {t ps ps'} (reads : ∃ ts, Reads d t ts) (more : Laid d ps ps') : Laid d (.text t :: ps) (.text t :: ps')
  | lead {t w w' ps ps'} (leads : ∃ ts, Leads d t ts) (word : Word w) (word' : Word w')
      (more : Laid d (.word w :: ps) (.word w' :: ps')) : Laid d (.text t :: .word w :: ps) (.text t :: .word w' :: ps')
  | joined {t u ps ps'} (more : Laid d (.text (t ++ u) :: ps) (.text (t ++ u) :: ps')) :
      Laid d (.text t :: .text u :: ps) (.text t :: .text u :: ps')
  | word {w w' t ps ps'} (word : Word w) (word' : Word w') (ends : ∃ c u, t = c :: u ∧ Separates c)
      (more : Laid d (.text t :: ps) (.text t :: ps')) : Laid d (.word w :: .text t :: ps) (.word w' :: .text t :: ps')
  | quoted {n n' ps ps'} (more : Laid d ps ps') : Laid d (.quoted n :: ps) (.quoted n' :: ps')

-- A token without its name, or without what it has between the quotes.
def erased : Token → Token
  | .identifier _ => .identifier []
  | .string _ => .string []
  | token => token

-- Two words that are the same, or identifiers both.
def Named (w w' : List Byte) : Prop := w = w' ∨ (w.head?.any letter = true ∧ w'.head?.any letter = true)

instance (w w' : List Byte) : Decidable (Named w w') := inferInstanceAs (Decidable (_ ∨ _))

section
variable {d : Dialect} {ps ps' qs qs' : List Part} {w w' t x : List Byte}

theorem erased_spelled : erased (spelled w) = erased (spelled w') ↔ Named w w' := by
  unfold spelled Named
  by_cases first : w.head?.any letter = true
  · by_cases second : w'.head?.any letter = true
    · rw [if_pos first,if_pos second]
      exact ⟨fun _ => .inr ⟨first,second⟩,fun _ => rfl⟩
    · rw [if_pos first,if_neg second]
      refine ⟨fun same => (by cases same),fun named => ?_⟩
      rcases named with rfl | both
      · exact absurd first second
      · exact absurd both.2 second
  · rw [if_neg first]
    by_cases second : w'.head?.any letter = true
    · rw [if_pos second]
      refine ⟨fun same => (by cases same),fun named => ?_⟩
      rcases named with rfl | both
      · exact absurd second first
      · exact absurd both.1 first
    · rw [if_neg second]
      constructor
      · intro same
        cases same
        exact .inl rfl
      · rintro (rfl | both)
        · rfl
        · exact absurd both.1 first

theorem Laid.fixed (whole : Sealed t) (more : Laid d ps ps') : Laid d (.text t :: ps) (.text t :: ps') := .text (whole.reads d) more

theorem Laid.append (first : Laid d ps ps') (second : Laid d qs qs') : Laid d (ps ++ qs) (ps' ++ qs') := by
  induction first with
  | nil => exact second
  | text reads _ ih => exact .text reads ih
  | lead leads word word' _ ih => exact .lead leads word word' ih
  | joined _ ih => exact .joined ih
  | word word word' ends _ ih => exact .word word word' ends ih
  | quoted _ ih => exact .quoted ih

-- Each file is read part by part, to tokens that are the same but for names if the words are.
theorem Laid.reads (laid : Laid d ps ps') (faithful : ∀ n, .quoted n ∈ ps ∨ .quoted n ∈ ps' → Faithful d n) :
    ∃ ts ts', Reads d (render ps) ts ∧ Reads d (render ps') ts' ∧
      (ts.map erased = ts'.map erased ↔ List.Forall₂ Named (words ps) (words ps')) := by
  induction laid with
  | nil => exact ⟨[],[],.nil,.nil,fun _ => .nil,fun _ => rfl⟩
  | @text t ps ps' reads _ ih =>
    obtain ⟨own,read⟩ := reads
    obtain ⟨ts,ts',left,right,same⟩ := ih fun n inside => faithful n (inside.imp (.tail _) (.tail _))
    refine ⟨own ++ ts,own ++ ts',read.append left,read.append right,?_⟩
    rw [List.map_append,List.map_append,List.append_right_inj]
    exact same
  | @lead t w w' ps ps' leads word word' _ ih =>
    obtain ⟨own,lead⟩ := leads
    obtain ⟨ts,ts',left,right,same⟩ := ih fun n inside => faithful n (inside.imp (.tail _) (.tail _))
    have joined : ∀ {w ps us}, Word w → Reads d (render (.word w :: ps)) us →
        Reads d (render (.text t :: .word w :: ps)) (own ++ us) := by
      intro w ps us word reads rest
      obtain ⟨b,w,rfl⟩ := List.exists_cons_of_ne_nil word.nonempty
      have first : render (.text t :: .word (b :: w) :: ps) ++ rest = t ++ b :: (w ++ render ps ++ rest) := by
        simp [render,Part.bytes]
      have second : b :: (w ++ render ps ++ rest) = render (.word (b :: w) :: ps) ++ rest := by
        simp [render,Part.bytes]
      rw [first,lead b _ (word.parts b (.head _)),second,reads,Option.map_map]
      congr 1
      funext more
      exact (List.append_assoc _ _ _).symm
    refine ⟨own ++ ts,own ++ ts',joined word left,joined word' right,?_⟩
    rw [List.map_append,List.map_append,List.append_right_inj]
    exact same
  | @joined t u ps ps' _ ih =>
    obtain ⟨ts,ts',left,right,same⟩ := ih fun n inside => faithful n (inside.imp
      (fun inside => by simpa using inside) (fun inside => by simpa using inside))
    have split : ∀ ps, render (.text t :: .text u :: ps) = render (.text (t ++ u) :: ps) := fun ps => by simp [render,Part.bytes]
    exact ⟨ts,ts',by rw [split]; exact left,by rw [split]; exact right,same⟩
  | @word w w' t ps ps' word word' ends _ ih =>
    obtain ⟨c,u,rfl,separates⟩ := ends
    obtain ⟨ts,ts',left,right,same⟩ := ih fun n inside => faithful n (inside.imp (.tail _) (.tail _))
    refine ⟨spelled w :: ts,spelled w' :: ts',word.before ⟨c,u ++ render ps,rfl,separates⟩ left,
      word'.before ⟨c,u ++ render ps',rfl,separates⟩ right,?_⟩
    have split : words (.word w :: .text (c :: u) :: ps) = w :: words (.text (c :: u) :: ps) := rfl
    have split' : words (.word w' :: .text (c :: u) :: ps') = w' :: words (.text (c :: u) :: ps') := rfl
    rw [List.map_cons,List.map_cons,List.cons.injEq,erased_spelled,same,split,split',List.forall₂_cons]
  | @quoted n n' ps ps' _ ih =>
    obtain ⟨ts,ts',left,right,same⟩ := ih fun n inside => faithful n (inside.imp (.tail _) (.tail _))
    refine ⟨.string n :: ts,.string n' :: ts',(literal_reading (faithful n (.inl (.head _)))).append left,
      (literal_reading (faithful n' (.inr (.head _)))).append right,?_⟩
    show Token.string [] :: ts.map erased = Token.string [] :: ts'.map erased ↔ _
    rw [List.cons_inj_right]
    exact same

theorem Laid.texts {xs : List (List Byte)} (reads : ∃ ts, Reads d (x ++ xs.flatten) ts) (more : Laid d ps ps') :
    Laid d (.text x :: (xs.map .text ++ ps)) (.text x :: (xs.map .text ++ ps')) := by
  have joined : Laid d (.text (x ++ xs.flatten) :: ps) (.text (x ++ xs.flatten) :: ps') := .text reads more
  clear reads
  induction xs generalizing x with
  | nil =>
    rw [List.flatten_nil,List.append_nil] at joined
    exact joined
  | cons y xs ih =>
    refine .joined (ih ?_)
    rw [List.append_assoc]
    exact joined

theorem Laid.flatMap {α : Type} {R : α → α → Prop} {f g : α → List Part} {xs ys : List α} (related : List.Forall₂ R xs ys)
    (each : ∀ x y, R x y → Laid d (f x) (g y)) : Laid d (xs.flatMap f) (ys.flatMap g) := by
  induction related with
  | nil => exact .nil
  | cons first _ ih => exact (each _ _ first).append ih

end

def Alike (d : Dialect) (file file' : List Part) : Prop :=
  ∃ ts ts', tokens d (render file) = some ts ∧ tokens d (render file') = some ts' ∧ ts.map erased = ts'.map erased

section
variable {d : Dialect}

theorem Laid.alike {file file' : List Part} (laid : Laid d file file')
    (faithful : ∀ n, .quoted n ∈ file ∨ .quoted n ∈ file' → Faithful d n) :
    Alike d file file' ↔ List.Forall₂ Named (words file) (words file') := by
  obtain ⟨ts,ts',left,right,same⟩ := laid.reads faithful
  rw [← same]
  constructor
  · rintro ⟨us,us',first,second,alike⟩
    cases left.whole.symm.trans first
    cases right.whole.symm.trans second
    exact alike
  · exact fun alike => ⟨ts,ts',left.whole,right.whole,alike⟩

theorem quoted_known {file : List Part} {n : List Byte} : .quoted n ∈ file → n ∈ quotedNames file := fun inside =>
  List.mem_filterMap.mpr ⟨_,inside,rfl⟩

end

end SandboxStack.Lexing
