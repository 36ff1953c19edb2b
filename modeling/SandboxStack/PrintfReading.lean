import SandboxStack.PrintfDirectives

namespace SandboxStack.Printf
open NumberText Stdio

section
variable {c b : Byte} {flags width longs rest : List Byte}

-- A run of bytes that satisfy p ends at the first that does not.
theorem span_run {p : Byte → Bool} (run rest : List Byte) (all : ∀ b ∈ run, p b = true)
    (stop : ∀ b, rest.head? = some b → p b = false) :
    (run ++ rest).takeWhile p = run ∧ (run ++ rest).dropWhile p = rest := by
  have none : rest.takeWhile p = [] ∧ rest.dropWhile p = rest := by
    cases rest with
    | nil => exact ⟨rfl,rfl⟩
    | cons b rest =>
      have fails := stop b rfl
      exact ⟨List.takeWhile_cons_of_neg (by simp [fails]),List.dropWhile_cons_of_neg (by simp [fails])⟩
  rw [List.takeWhile_append_of_pos all,List.dropWhile_append_of_pos all,none.1,none.2]
  exact ⟨List.append_nil _,rfl⟩

-- A byte at which the reading of a conversion specification ends.
structure Stops (b : Byte) : Prop where
  flag : isFlagByte b = false
  digit : isDigitByte b = false
  point : b ≠ 46
  long : isLongByte b = false

instance : Decidable (Stops b) :=
  decidable_of_iff (isFlagByte b = false ∧ isDigitByte b = false ∧ b ≠ 46 ∧ isLongByte b = false)
    ⟨fun ⟨flag,digit,point,long⟩ => ⟨flag,digit,point,long⟩,fun ⟨flag,digit,point,long⟩ => ⟨flag,digit,point,long⟩⟩

-- The digits of a precision follow a point.
def precisionBytes : Option (List Byte) → List Byte
  | none => []
  | some digits => 46 :: digits

theorem readPrec_bytes {precision : Option (List Byte)} (digits : ∀ ds, precision = some ds → ∀ b ∈ ds, isDigitByte b = true)
    (stop : ∀ b, rest.head? = some b → isDigitByte b = false ∧ b ≠ 46) :
    readPrec (precisionBytes precision ++ rest) = (precision.elim (-1) readNumber,rest) := by
  cases precision with
  | none =>
    cases rest with
    | nil => rfl
    | cons b rest =>
      have other := (stop b rfl).2
      show readPrec (b :: rest) = _
      unfold readPrec
      split
      · rename_i same
        exact absurd (List.cons.inj same).1 other
      · rfl
  | some ds =>
    obtain ⟨taken,left⟩ := span_run ds rest (digits ds rfl) fun b first => (stop b first).1
    show (readNumber ((ds ++ rest).takeWhile isDigitByte),(ds ++ rest).dropWhile isDigitByte) = _
    rw [taken,left]
    rfl

theorem readSpec_bytes (rest : List Byte) {precision : Option (List Byte)} (flag : ∀ b ∈ flags, isFlagByte b = true)
    (digit : ∀ b ∈ width, isDigitByte b = true) (first : ∀ b, width.head? = some b → isFlagByte b = false)
    (precise : ∀ ds, precision = some ds → ∀ b ∈ ds, isDigitByte b = true) (long : ∀ b ∈ longs, isLongByte b = true)
    (stops : Stops c) :
    readSpec (flags ++ (width ++ (precisionBytes precision ++ (longs ++ c :: rest)))) =
      (⟨flags.contains 48,flags.contains 45,readNumber width,precision.elim (-1) readNumber,longs.length⟩,c :: rest) := by
  have longHead : ∀ b, (longs ++ c :: rest).head? = some b → isFlagByte b = false ∧ isDigitByte b = false ∧ b ≠ 46 := by
    intro b head
    cases longs with
    | nil =>
      cases head
      exact ⟨stops.flag,stops.digit,stops.point⟩
    | cons l longs =>
      cases head
      have letter := long b (.head _)
      rcases (show b = 108 ∨ b = 122 by simpa [isLongByte] using letter) with rfl | rfl <;> decide
  have precisionHead : ∀ b, (precisionBytes precision ++ (longs ++ c :: rest)).head? = some b →
      isFlagByte b = false ∧ isDigitByte b = false := by
    intro b head
    cases precision with
    | none => exact ⟨(longHead b head).1,(longHead b head).2.1⟩
    | some ds =>
      cases head
      decide
  have widthHead : ∀ b, (width ++ (precisionBytes precision ++ (longs ++ c :: rest))).head? = some b → isFlagByte b = false := by
    intro b head
    cases width with
    | nil => exact (precisionHead b head).1
    | cons w width =>
      cases head
      exact first b rfl
  obtain ⟨flagsTaken,flagsLeft⟩ := span_run flags _ flag widthHead
  obtain ⟨widthTaken,widthLeft⟩ := span_run width _ digit fun b head => (precisionHead b head).2
  obtain ⟨longsTaken,longsLeft⟩ := span_run longs (c :: rest) long fun b head => by cases head; exact stops.long
  unfold readSpec
  simp only [flagsTaken,flagsLeft,widthTaken,widthLeft,readPrec_bytes precise fun b head => (longHead b head).2,longsTaken,longsLeft]

theorem digitByte_digit (d : Fin 10) : isDigitByte (digitByte d) = true := by
  revert d
  decide

theorem digitByte_flag {d : Fin 10} (nonzero : d ≠ 0) : isFlagByte (digitByte d) = false := by
  revert d
  decide

theorem readNumber_digits (ds : List (Fin 10)) : readNumber (ds.map digitByte) = BitVec.ofNat 32 (Amount.digits ds).value := by
  have each : ∀ (ds : List (Fin 10)) (n : Nat),
      (ds.map digitByte).foldl (fun n b => n * 10 + (b.setWidth 32 - 48)) (BitVec.ofNat 32 n) =
        BitVec.ofNat 32 (ds.foldl (fun n d => n * 10 + d.val) n) := by
    intro ds
    induction ds with
    | nil => intro n; rfl
    | cons d ds ih =>
      intro n
      have value : (digitByte d).setWidth 32 - 48 = BitVec.ofNat 32 d.val := by
        revert d
        decide
      rw [List.map_cons,List.foldl_cons,List.foldl_cons,value,← ih]
      congr 1
      rw [BitVec.ofNat_add,BitVec.ofNat_mul]
      rfl
  exact each ds 0

end

def Flag.refused : Flag → Bool
  | .plus | .space | .alternative => true
  | _ => false

def Length.refused : Length → Bool
  | .hh | .h | .j | .t => true
  | _ => false

-- The features for which format aborts.
def Directive.Refused (d : Directive) : Prop :=
  (∃ flag ∈ d.flags, flag.refused = true) ∨ d.width = .star ∨ d.precision = .star ∨ d.length.refused = true

structure Directive.Served (d : Directive) : Prop where
  flags : ∀ flag ∈ d.flags, flag.refused = false
  width : d.width ≠ .star
  precision : d.precision ≠ .star
  length : d.length.refused = false

theorem served_iff {d : Directive} : d.Served ↔ ¬d.Refused := by
  simp only [Directive.Refused,not_or,not_exists,not_and,Bool.not_eq_true]
  exact ⟨fun ⟨flags,width,precision,length⟩ => ⟨flags,width,precision,length⟩,
    fun ⟨flags,width,precision,length⟩ => ⟨flags,width,precision,length⟩⟩

-- The number that stands in the specification.
def Amount.given : Amount → Option Nat
  | .digits ds => some (Amount.digits ds).value
  | _ => none

def Directive.spec (d : Directive) : Spec where
  zero := decide (Flag.zero ∈ d.flags)
  left := decide (Flag.minus ∈ d.flags)
  width := BitVec.ofNat 32 d.width.value
  prec := d.precision.given.elim (-1) (BitVec.ofNat 32)
  longs := d.length.bytes.length

section
variable {d : Directive} {rest : List Byte}

theorem contains_flag (flags : List Flag) (flag : Flag) : (flags.map Flag.byte).contains flag.byte = decide (flag ∈ flags) := by
  induction flags with
  | nil => rfl
  | cons f flags ih =>
    rw [List.map_cons,List.contains_cons,ih]
    revert f flag
    simp only [List.mem_cons]
    intro f flag _
    cases f <;> cases flag <;> simp [Flag.byte]

theorem served_flags (served : ∀ flag ∈ d.flags, flag.refused = false) : ∀ b ∈ d.flags.map Flag.byte, isFlagByte b = true := by
  intro b member
  obtain ⟨flag,inside,rfl⟩ := List.mem_map.mp member
  have supported := served flag inside
  cases flag <;> first | rfl | cases supported

theorem amount_digits (amount : Amount) (plain : amount ≠ .star) : ∀ b ∈ amount.bytes, isDigitByte b = true := by
  intro b member
  cases amount with
  | absent => cases member
  | star => exact absurd rfl plain
  | digits ds =>
    obtain ⟨e,_,rfl⟩ := List.mem_map.mp member
    exact digitByte_digit e

theorem amount_number (amount : Amount) (plain : amount ≠ .star) : readNumber amount.bytes = BitVec.ofNat 32 amount.value := by
  cases amount with
  | absent => rfl
  | star => exact absurd rfl plain
  | digits ds => exact readNumber_digits ds

theorem width_digits (valid : d.Valid) (plain : d.width ≠ .star) :
    (∀ b ∈ d.width.bytes, isDigitByte b = true) ∧ ∀ b, d.width.bytes.head? = some b → isFlagByte b = false := by
  refine ⟨amount_digits d.width plain,fun b head => ?_⟩
  cases which : d.width with
  | absent =>
    rw [which] at head
    cases head
  | star => exact absurd which plain
  | digits ds =>
    obtain ⟨e,es,rfl,nonzero⟩ := valid.width ds which
    rw [which] at head
    cases head
    exact digitByte_flag nonzero

theorem precision_digits (plain : d.precision ≠ .star) : ∃ given, d.precision.pointed = precisionBytes given ∧
    given.elim (-1) readNumber = d.precision.given.elim (-1) (BitVec.ofNat 32) ∧
    ∀ ds, given = some ds → ∀ b ∈ ds, isDigitByte b = true := by
  cases which : d.precision with
  | absent => exact ⟨none,rfl,rfl,fun _ absent => by cases absent⟩
  | star => exact absurd which plain
  | digits ds =>
    refine ⟨some (ds.map digitByte),rfl,readNumber_digits ds,fun _ same b member => ?_⟩
    cases same
    exact amount_digits (.digits ds) (by simp) b member

-- A conversion specification that is read to its conversion.
theorem readSpec_served (rest : List Byte) (valid : d.Valid) (served : d.Served) :
    readSpec (d.bytes ++ rest) = (d.spec,d.kind.byte :: rest) := by
  obtain ⟨flags,width,precision,length⟩ := served
  have stops : Stops d.kind.byte := by
    cases d.kind <;> decide
  have long : ∀ b ∈ d.length.bytes, isLongByte b = true := by
    cases which : d.length <;> rw [which] at length <;> first | cases length; done | decide
  obtain ⟨digit,first⟩ := width_digits valid width
  obtain ⟨given,same,number,precise⟩ := precision_digits precision
  have read := readSpec_bytes rest (served_flags flags) digit first precise long stops
  have zero := contains_flag d.flags .zero
  have minus := contains_flag d.flags .minus
  simp only [Directive.bytes,List.append_assoc,List.cons_append,List.nil_append,same]
  rw [read,number,amount_number d.width width]
  exact congrArg (fun spec => (spec,_)) (by rw [Directive.spec,← zero,← minus]; rfl)


-- The bytes of the features that abort.
theorem unsupported_aborts {c : Byte} (unsupported : c ∈ ([43,32,35,42,104,106,116] : List Byte)) :
    Stops c ∧ ∀ num spec args, convert num spec c args = .aborts := by
  simp only [List.mem_cons,List.not_mem_nil,or_false] at unsupported
  rcases unsupported with rfl | rfl | rfl | rfl | rfl | rfl | rfl <;> exact ⟨by decide,fun _ _ _ => rfl⟩

-- The first of them ends the reading.
theorem readSpec_refused (rest : List Byte) (valid : d.Valid) (refused : d.Refused) :
    ∃ spec c after, readSpec (d.bytes ++ rest) = (spec,c :: after) ∧ ∀ num args, convert num spec c args = .aborts := by
  suffices stop : ∃ (flags : List Flag) (width : List Byte) (precision : Option (List Byte)) (c : Byte) (after : List Byte),
      (∀ flag ∈ flags, flag.refused = false) ∧ (∀ b ∈ width, isDigitByte b = true) ∧
      (∀ b, width.head? = some b → isFlagByte b = false) ∧ (∀ ds, precision = some ds → ∀ b ∈ ds, isDigitByte b = true) ∧
      c ∈ ([43,32,35,42,104,106,116] : List Byte) ∧
      d.bytes ++ rest = flags.map Flag.byte ++ (width ++ (precisionBytes precision ++ ([] ++ c :: after))) by
    obtain ⟨flags,width,precision,c,after,served,digit,first,precise,unsupported,same⟩ := stop
    obtain ⟨stops,aborts⟩ := unsupported_aborts unsupported
    rw [same]
    exact ⟨_,c,after,readSpec_bytes after (served_flags (d := {d with flags}) served) digit first precise (List.forall_mem_nil _) stops,
      fun num args => aborts num _ args⟩
  have none_digits : ∀ ds : List Byte, none = some ds → ∀ b ∈ ds, isDigitByte b = true := fun _ absent => by cases absent
  have no_first : ∀ b, ([] : List Byte).head? = some b → isFlagByte b = false := fun _ absent => by cases absent
  by_cases flagged : ∃ flag ∈ d.flags, flag.refused = true
  · cases found : d.flags.find? Flag.refused with
    | none =>
      obtain ⟨flag,inside,bad⟩ := flagged
      exact absurd bad (List.find?_eq_none.mp found flag inside)
    | some bad =>
      obtain ⟨unsupported,before,after,flags,served⟩ := List.find?_eq_some_iff_append.mp found
      refine ⟨before,[],none,bad.byte,
        after.map Flag.byte ++ d.width.bytes ++ d.precision.pointed ++ d.length.bytes ++ [d.kind.byte] ++ rest,
        fun flag inside => by simpa using served flag inside,List.forall_mem_nil _,no_first,none_digits,?_,?_⟩
      · cases bad <;> first | cases unsupported; done | decide
      · simp [Directive.bytes,flags,precisionBytes]
  have supported : ∀ flag ∈ d.flags, flag.refused = false := fun flag inside =>
    Bool.eq_false_iff.mpr fun bad => flagged ⟨flag,inside,bad⟩
  by_cases starred : d.width = .star
  · refine ⟨d.flags,[],none,42,d.precision.pointed ++ d.length.bytes ++ [d.kind.byte] ++ rest,supported,List.forall_mem_nil _,no_first,
      none_digits,by decide,?_⟩
    simp [Directive.bytes,starred,Amount.bytes,precisionBytes]
  obtain ⟨digit,first⟩ := width_digits valid starred
  by_cases pointed : d.precision = .star
  · refine ⟨d.flags,d.width.bytes,some [],42,d.length.bytes ++ [d.kind.byte] ++ rest,supported,digit,first,fun ds same b member => ?_,
      by decide,?_⟩
    · cases same
      cases member
    · simp [Directive.bytes,pointed,Amount.pointed,Amount.bytes,precisionBytes]
  have length : d.length.refused = true := by
    rcases refused with bad | star | star | bad
    · exact absurd bad flagged
    · exact absurd star starred
    · exact absurd star pointed
    · exact bad
  have letter : ∃ c after, c ∈ ([43,32,35,42,104,106,116] : List Byte) ∧ d.length.bytes ++ [d.kind.byte] ++ rest = c :: after := by
    cases which : d.length <;> rw [which] at length <;>
      first | cases length; done | exact ⟨_,_,by decide,rfl⟩
  obtain ⟨c,after,unsupported,remaining⟩ := letter
  obtain ⟨given,same,_,precise⟩ := precision_digits pointed
  refine ⟨d.flags,d.width.bytes,given,c,after,supported,digit,first,precise,unsupported,?_⟩
  rw [List.nil_append,← remaining,← same]
  simp only [Directive.bytes,List.append_assoc]

end

end SandboxStack.Printf
