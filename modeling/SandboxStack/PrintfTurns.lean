import SandboxStack.PrintfReading
import SandboxStack.PrintfFields

namespace SandboxStack.Printf
open NumberText Stdio

-- The specification without what format reads and takes no notice of.
def Directive.bare (d : Directive) : Directive :=
  if d.kind.integer then {d with precision := .absent} else {d with length := .plain}

-- The sign and the digits, with their number.
def Directive.body (d : Directive) (v : Int) : Body :=
  let bytes := (if decide (v < 0) then [45] else []) ++ d.kind.digits v.natAbs
  ⟨decide (v < 0),bytes,BitVec.ofNat 32 bytes.length⟩

section
variable {d : Directive} {num : List Byte} {more : List Arg} {arg : Arg} {v : Int} {n : Nat} {spelling : List Char} {f : Char → Char}

theorem spelled_written (spelling : List Char) (base : Nat) (large : 1 < base)
    (same : ∀ d < base, f (digitText d) = spelling.getD d '0') : text ((written base n).map f) = spelled spelling base n := by
  have each : ∀ ds : List Nat, (∀ d ∈ ds, d < base) →
      text ((ds.map digitText).map f) = ds.map fun d => BitVec.ofNat 8 (spelling.getD d '0').toNat := by
    intro ds small
    simp only [text,List.map_map]
    refine List.map_congr_left fun d inside => ?_
    show BitVec.ofNat 8 (f (digitText d)).toNat = _
    rw [same d (small d inside)]
  unfold written spelled
  split
  · exact each [0] fun d inside => by cases List.mem_singleton.mp inside; omega
  · exact each _ fun d inside => Nat.digits_lt_base large (List.mem_reverse.mp inside)

theorem spelled_decimal : spelled lowerDigits 10 n = text (written 10 n) := by
  have same := spelled_written lowerDigits 10 (n := n) (f := id) (by decide) (by decide)
  rwa [List.map_id,eq_comm] at same

theorem spelled_upper : spelled upperDigits 16 n = text (written 16 n) := by
  have same := spelled_written upperDigits 16 (n := n) (f := id) (by decide) (by decide)
  rwa [List.map_id,eq_comm] at same

theorem spelled_lower : spelled lowerDigits 16 n = text (lower (written 16 n)) :=
  (spelled_written lowerDigits 16 (n := n) (f := Char.toLower) (by decide) (by decide)).symm

theorem digits_bounded (kind : Kind) (small : n < 2 ^ 64) : 1 ≤ (kind.digits n).length ∧ (kind.digits n).length < 24 := by
  have each : ∀ base, 10 ≤ base → 1 ≤ (written base n).length ∧ (written base n).length < 24 := by
    intro base large
    refine ⟨List.length_pos_iff.mpr written_nonempty,?_⟩
    have inside : n < base ^ 20 := Nat.lt_of_lt_of_le small ((by decide : 2 ^ 64 ≤ 10 ^ 20).trans (Nat.pow_le_pow_left large 20))
    have short := (Nat.digits_length_le_iff (by omega) n).mpr inside
    unfold written
    split
    · simp
    · simp
      omega
  cases kind <;> simp only [Kind.digits,text,lower,List.length_map] <;> exact each _ (by decide)

theorem integer_magnitude (value : d.integer arg = some v) : v.natAbs < 2 ^ 64 := by
  have each : ∀ {w : Nat} (x : BitVec w), w ≤ 64 → (d.kind.value x).natAbs < 2 ^ 64 := by
    intro w x narrow
    have bound := Nat.lt_of_lt_of_le x.isLt (Nat.pow_le_pow_right (by decide) narrow)
    unfold Kind.value
    split
    · rw [BitVec.toInt_eq_toNat_cond]
      split <;> omega
    · simpa using bound
  unfold Directive.integer at value
  split at value <;> cases value <;> exact each _ (by decide)

theorem signedArg_integer (more : List Arg) (served : d.length.refused = false) (signed : d.kind.signed = true)
    (value : d.integer arg = some v) : signedArg d.length.bytes.length (arg :: more) = some (v,more) := by
  unfold Directive.integer Kind.value at value
  rw [signed] at value
  cases which : d.length <;> rw [which] at served value <;> cases arg <;>
    first | cases served; done | (cases value; done) | (cases value; rfl)

theorem unsignedArg_integer (more : List Arg) (served : d.length.refused = false) (unsigned : d.kind.signed = false)
    (value : d.integer arg = some v) :
    unsignedArg d.length.bytes.length (arg :: more) = some (v.natAbs,more) ∧ 0 ≤ v := by
  unfold Directive.integer Kind.value at value
  rw [unsigned] at value
  cases which : d.length <;> rw [which] at served value <;> cases arg <;>
    first | cases served; done | (cases value; done) | (cases value; exact ⟨rfl,Int.natCast_nonneg _⟩)

theorem convert_unsigned (base : Nat) (more : List Arg) (buffer : num.length = 24) (served : d.length.refused = false)
    (unsigned : d.kind.signed = false) (value : d.integer arg = some v) (large : 1 < base)
    (same : spelled spelling base v.natAbs = d.kind.digits v.natAbs) :
    nextUnsigned d.spec.longs (arg :: more) (fun v => number spelling base large false v num) = .body (d.body v) more := by
  have short := (digits_bounded d.kind (integer_magnitude value)).2
  obtain ⟨argument,positive⟩ := unsignedArg_integer more served unsigned value
  have read : unsignedArg d.spec.longs (arg :: more) = _ := argument
  unfold Directive.body nextUnsigned
  rw [read,decide_eq_false (Int.not_lt.mpr positive)]
  show Conversion.body (number spelling base large false v.natAbs num) more = _
  rw [number_spelled large buffer (by rw [same]; exact short),same]

theorem convert_signed {spec : Spec} {c : Byte} {args : List Arg} (signed : c = 100 ∨ c = 105) :
    convert num spec c args = (signedArg spec.longs args).elim .traps fun p =>
      .body (number lowerDigits 10 (by decide) (decide (p.1 < 0)) (if p.1 < 0 then (-(p.1 + 1)).toNat + 1 else p.1.toNat) num) p.2 := by
  rcases signed with rfl | rfl <;> cases which : signedArg spec.longs args <;> simp [convert,which]

-- What the switch does for an integer conversion.
theorem convert_integer (buffer : num.length = 24) (served : d.length.refused = false) (integer : d.kind.integer = true)
    (value : d.integer arg = some v) :
    convert num d.spec d.kind.byte (arg :: more) = .body (d.body v) more := by
  unfold Directive.body
  cases which : d.kind with
  | d | i =>
    have short := (digits_bounded d.kind (integer_magnitude value)).2
    have argument := signedArg_integer more served (by rw [which]; rfl) value
    have magnitude : (if v < 0 then (-(v + 1)).toNat + 1 else v.toNat) = v.natAbs := by
      split <;> omega
    rw [which] at short
    have read : signedArg d.spec.longs (arg :: more) = _ := argument
    rw [convert_signed (by decide),read,Option.elim_some]
    dsimp only
    rw [magnitude,number_spelled (by decide) buffer (by rw [spelled_decimal]; exact short),spelled_decimal]
    rfl
  | u =>
    have converts := convert_unsigned 10 more buffer served (by rw [which]; rfl) value (by decide)
      (by rw [which]; exact spelled_decimal)
    unfold Directive.body at converts
    rw [which] at converts
    exact converts
  | x =>
    have converts := convert_unsigned 16 more buffer served (by rw [which]; rfl) value (by decide)
      (by rw [which]; exact spelled_lower)
    unfold Directive.body at converts
    rw [which] at converts
    exact converts
  | X =>
    have converts := convert_unsigned 16 more buffer served (by rw [which]; rfl) value (by decide)
      (by rw [which]; exact spelled_upper)
    unfold Directive.body at converts
    rw [which] at converts
    exact converts
  | c | s | percent =>
    rw [which] at integer
    cases integer

end

def Turn.Terminated (t : Turn) : Prop := ∀ memory, .string (some memory) ∈ t.args → 0 ∈ memory

def Turn.Short (t : Turn) : Prop := ∀ memory, .string (some memory) ∈ t.args → (cString memory).length < 2 ^ 31

section
variable {d : Directive} {bytes : List Byte} {args : List Arg} {arg : Arg} {v : Int} {w : Nat} {left : Bool}
  {encode : BitVec 32 → List Byte} {precision : Option Nat}

theorem read_given {amount : Amount} (args : List Arg) (plain : amount ≠ .star) :
    amount.read args = some (amount.given.map Int.ofNat,args) ∧ amount.given.getD 0 = amount.value := by
  cases amount with
  | absent => exact ⟨rfl,rfl⟩
  | star => exact absurd rfl plain
  | digits ds => exact ⟨rfl,rfl⟩

theorem prescribed_served (width : d.width ≠ .star) (precision : d.precision ≠ .star) :
    d.prescribed encode args = d.converted encode d.width.value d.precision.given (decide (Flag.minus ∈ d.flags)) args := by
  obtain ⟨readWidth,valueWidth⟩ := read_given args width
  obtain ⟨readPrecision,_⟩ := read_given args precision
  have natural : ((d.width.given.map Int.ofNat).getD 0).natAbs = d.width.value ∧ ¬(d.width.given.map Int.ofNat).getD 0 < 0 := by
    rw [← valueWidth]
    cases d.width.given with
    | none => exact ⟨rfl,by decide⟩
    | some n => exact ⟨rfl,Int.not_lt.mpr (Int.natCast_nonneg n)⟩
  have given : (d.precision.given.map Int.ofNat).bind (fun p => if p < 0 then none else some p.toNat) = d.precision.given := by
    cases d.precision.given with
    | none => rfl
    | some n =>
      show (if (n : Int) < 0 then none else some n) = some n
      rw [if_neg (Int.not_lt.mpr (Int.natCast_nonneg n))]
  unfold Directive.prescribed
  simp only [readWidth,readPrecision,Option.bind_eq_bind,Option.bind_some,natural.1,given]
  congr 1
  simp only [natural.2,or_false]

-- The bytes of an integer conversion, with no precision.
def Directive.unpointed (d : Directive) (v : Int) : List Byte :=
  let before := if decide (v < 0) then [45] else []
  if decide (Flag.zero ∈ d.flags) && !decide (Flag.minus ∈ d.flags) then zeroField d.width.value before (d.kind.digits v.natAbs)
  else field (decide (Flag.minus ∈ d.flags)) d.width.value (before ++ d.kind.digits v.natAbs)

theorem sign_served (flags : ∀ flag ∈ d.flags, flag.refused = false) :
    d.sign v = (if decide (v < 0) then [45] else []) ∧ d.base v = [] := by
  have absent : ∀ flag : Flag, flag.refused = true → flag ∉ d.flags := fun flag bad inside => by
    rw [flags _ inside] at bad
    cases bad
  refine ⟨?_,if_neg fun both => absent _ rfl both.1⟩
  unfold Directive.sign
  by_cases negative : v < 0
  · rw [if_pos negative,decide_eq_true negative]
    rfl
  · rw [if_neg negative,decide_eq_false negative,if_neg (absent .plus rfl),if_neg (absent .space rfl)]
    split <;> rfl

theorem digits_unpointed (value : d.integer arg = some v) : d.digits none v = d.kind.digits v.natAbs := by
  have one := (digits_bounded d.kind (integer_magnitude value)).1
  unfold Directive.digits precise
  rw [if_neg (fun both => by cases both.2)]
  show List.replicate (1 - _) 48 ++ _ = _
  rw [Nat.sub_eq_zero_of_le one]
  rfl

theorem converted_integer (integer : d.kind.integer = true) :
    d.converted encode w precision left [arg] = (d.integer arg).map fun v =>
      if Flag.zero ∈ d.flags ∧ left = false ∧ precision = none then zeroField w (d.sign v ++ d.base v) (d.digits precision v)
      else field left w (d.sign v ++ d.base v ++ d.digits precision v) := by
  unfold Directive.converted
  cases which : d.kind <;> first | rfl | (rw [which] at integer; cases integer)

theorem converted_args (integer : d.kind.integer = true) (converts : d.converted encode w precision left args = some bytes) :
    w ≤ bytes.length ∧ ∃ arg v, args = [arg] ∧ d.integer arg = some v := by
  have single : ∃ arg, args = [arg] := by
    unfold Directive.converted at converts
    cases which : d.kind <;> rw [which] at integer converts <;> first | cases integer; done | skip
    all_goals
      dsimp only at converts
      split at converts
      · exact ⟨_,rfl⟩
      · cases converts
  obtain ⟨arg,rfl⟩ := single
  rw [converted_integer integer] at converts
  obtain ⟨v,value,padded⟩ := Option.map_eq_some_iff.mp converts
  refine ⟨?_,arg,v,rfl,value⟩
  rw [← padded]
  split
  · rw [zeroField_length]
    exact Nat.le_max_left _ _
  · rw [field_length]
    exact Nat.le_max_left _ _

theorem converted_character (character : d.kind = .c) (converts : d.converted encode w precision left args = some bytes) :
    w ≤ bytes.length ∧ ∃ v, args = [.int v] := by
  unfold Directive.converted at converts
  rw [character] at converts
  dsimp only at converts
  split at converts
  · obtain ⟨text,_,padded⟩ := Option.map_eq_some_iff.mp converts
    rw [← padded,field_length]
    exact ⟨Nat.le_max_left _ _,_,rfl⟩
  · cases converts

theorem converted_string (string : d.kind = .s) (converts : d.converted encode w precision left args = some bytes) :
    w ≤ bytes.length ∧ ∃ memory, args = [.string (some memory)] := by
  unfold Directive.converted at converts
  rw [string] at converts
  dsimp only at converts
  split at converts
  · obtain ⟨text,_,padded⟩ := Option.map_eq_some_iff.mp converts
    rw [← padded,field_length]
    exact ⟨Nat.le_max_left _ _,_,rfl⟩
  · cases converts

end

section
variable {d : Directive} {num memory : List Byte} {args : List Arg} {arg : Arg} {v : Int} {encode : BitVec 32 → List Byte}

theorem bare_integer (served : d.Served) (integer : d.kind.integer = true) (value : d.integer arg = some v) :
    d.bare.prescribed encode [arg] = some (d.unpointed v) := by
  have bare : d.bare = {d with precision := .absent} := if_pos integer
  have plain : d.bare.width ≠ .star ∧ d.bare.precision ≠ .star := by
    rw [bare]
    exact ⟨served.width,by simp⟩
  obtain ⟨sign,prefixless⟩ := sign_served (v := v) served.flags
  rw [prescribed_served plain.1 plain.2,bare]
  refine (converted_integer (d := {d with precision := .absent}) integer).trans ?_
  show (d.integer arg).map _ = _
  rw [value]
  show some (if _ ∧ _ ∧ _ then zeroField d.width.value (d.sign v ++ d.base v) (d.digits none v)
    else field _ d.width.value (d.sign v ++ d.base v ++ d.digits none v)) = _
  rw [sign,prefixless,digits_unpointed value,List.append_nil]
  simp [Directive.unpointed,Amount.given]

theorem convert_string {spec : Spec} {more : List Arg} :
    convert num spec Kind.s.byte (.string (some memory) :: more) = (strlen memory).elim .traps fun n =>
      .body ⟨false,memory,if (0 : BitVec 32).sle spec.prec ∧ spec.prec.slt (BitVec.ofNat 32 n) then spec.prec else BitVec.ofNat 32 n⟩
        more := by
  cases which : strlen memory <;> simp [convert,which,Kind.byte]

theorem string_measured (num : List Byte) (len : BitVec 32) (string : d.kind = .s) (terminated : 0 ∈ memory)
    (same : (if (0 : BitVec 32).sle d.spec.prec ∧ d.spec.prec.slt (BitVec.ofNat 32 (cString memory).length) then d.spec.prec
      else BitVec.ofNat 32 (cString memory).length) = len) :
    ∀ more, convert num d.spec d.kind.byte (.string (some memory) :: more) = .body ⟨false,memory,len⟩ more := by
  intro more
  rw [string,← same,convert_string,strlen,if_pos terminated]
  rfl

theorem string_converts (num : List Byte) (valid : d.Valid) (plain : d.precision ≠ .star) (string : d.kind = .s)
    (terminated : 0 ∈ memory) (short : (cString memory).length < 2 ^ 31) :
    ∃ l, l < 2 ^ 31 ∧ l ≤ memory.length ∧ narrowText d.precision.given memory = some (memory.take l) ∧
      ∀ more, convert num d.spec d.kind.byte (.string (some memory) :: more) = .body ⟨false,memory,BitVec.ofNat 32 l⟩ more := by
  have taken : memory.take (cString memory).length = cString memory :=
    (List.prefix_iff_eq_take.mp (List.takeWhile_prefix _)).symm
  have inside : (cString memory).length ≤ memory.length := (List.takeWhile_prefix _).length_le
  have measured := fun len => string_measured (d := d) num len string terminated
  cases given : d.precision.given with
  | none =>
    refine ⟨(cString memory).length,short,inside,?_,measured _ ?_⟩
    · rw [narrowText,if_pos terminated,taken]
    · refine if_neg fun both => ?_
      have negative : d.spec.prec = -1 := by rw [Directive.spec,given]; rfl
      rw [negative] at both
      exact absurd both.1 (by decide)
  | some p =>
    have bounded : p < 2 ^ 31 := by
      have value := (read_given [] plain).2
      rw [given] at value
      exact Nat.lt_of_le_of_lt (Nat.le_of_eq value) valid.precision
    have prec : d.spec.prec = BitVec.ofNat 32 p := by rw [Directive.spec,given]; rfl
    refine ⟨min p (cString memory).length,by omega,by omega,?_,measured _ ?_⟩
    · rw [narrowText,if_pos (.inl terminated),← taken,List.take_take,taken]
    · rw [prec]
      simp only [BitVec.sle_iff_toInt_le,BitVec.slt_iff_toInt_lt,toInt_small bounded,toInt_small short]
      split
      · rename_i less
        rw [Nat.min_eq_left (by omega)]
      · rename_i more
        have nonnegative : (0 : BitVec 32).toInt ≤ (p : Int) := Int.natCast_nonneg p
        rw [Nat.min_eq_right (by omega)]

theorem bare_text (served : d.Served) (text : d.kind = .c ∨ d.kind = .s) :
    d.bare.prescribed encode args = ({d with length := .plain} : Directive).converted encode d.width.value d.precision.given
      (decide (Flag.minus ∈ d.flags)) args := by
  have bare : d.bare = {d with length := .plain} := by
    rcases text with kind | kind <;> simp [Directive.bare,kind,Kind.integer]
  rw [bare]
  exact prescribed_served (d := {d with length := .plain}) served.width served.precision

theorem no_zero (valid : d.Valid) (other : d.kind.integer = false) : decide (Flag.zero ∈ d.flags) = false :=
  decide_eq_false fun inside => by
    rw [valid.zero inside] at other
    cases other

end

section
variable {d : Directive} {num bytes memory : List Byte} {arg : Arg} {v : Int} {x : BitVec 32} {l : Nat}
  {encode : BitVec 32 → List Byte}

-- The turn of the loop puts out what C99 prescribes without the features that
-- are not seen, and counts it.
def Writes (encode : BitVec 32 → List Byte) (num : List Byte) (d : Directive) (args : List Arg) : Prop :=
  ∃ b out, (∀ more, convert num d.spec d.kind.byte (args ++ more) = .body b more) ∧
    d.bare.prescribed encode args = some out ∧ layout d.spec b = (out,BitVec.ofNat 32 out.length)

theorem layout_field (bytes : List Byte) (valid : d.Valid) (other : d.kind.integer = false) (width : d.width.value < 2 ^ 31)
    (length : l < 2 ^ 31) (inside : l ≤ bytes.length) :
    ∃ out, out = field (decide (Flag.minus ∈ d.flags)) d.width.value (bytes.take l) ∧
      layout d.spec ⟨false,bytes,BitVec.ofNat 32 l⟩ = (out,BitVec.ofNat 32 out.length) := by
  have zero := no_zero valid other
  refine ⟨_,rfl,?_⟩
  rw [field_length,List.length_take,Nat.min_eq_left inside]
  unfold Directive.spec
  rw [zero]
  exact layout_bytes width length inside

theorem integer_writes (buffer : num.length = 24) (served : d.Served) (integer : d.kind.integer = true) (width : d.width.value < 2 ^ 31)
    (value : d.integer arg = some v) : Writes encode num d [arg] :=
  ⟨_,_,fun _ => convert_integer buffer served.length integer value,bare_integer served integer value,
    layout_number width (digits_bounded d.kind (integer_magnitude value)).2 rfl rfl⟩

theorem character_writes (valid : d.Valid) (served : d.Served) (character : d.kind = .c) (width : d.width.value < 2 ^ 31) :
    Writes encode num d [.int x] := by
  obtain ⟨out,same,laid⟩ := layout_field (l := 1) (x.setWidth 8 :: num.tail) valid (by rw [character]; rfl) width (by decide)
    (Nat.succ_le_succ (Nat.zero_le _))
  refine ⟨_,out,fun more => ?_,?_,laid⟩
  · rw [character]
    rfl
  · rw [bare_text served (.inl character),same]
    unfold Directive.converted
    rw [character]
    rfl

theorem string_writes (valid : d.Valid) (served : d.Served) (string : d.kind = .s) (width : d.width.value < 2 ^ 31)
    (terminated : 0 ∈ memory) (short : (cString memory).length < 2 ^ 31) : Writes encode num d [.string (some memory)] := by
  obtain ⟨l,small,inside,text,converts⟩ := string_converts num valid served.precision string terminated short
  obtain ⟨out,same,laid⟩ := layout_field memory valid (by rw [string]; rfl) width small inside
  refine ⟨_,out,converts,?_,laid⟩
  rw [bare_text served (.inr string),same]
  unfold Directive.converted
  rw [string]
  show (narrowText d.precision.given memory).map _ = _
  rw [text]
  rfl

theorem percent_writes (valid : d.Valid) (percent : d.kind = .percent) : Writes encode num d [] := by
  have whole := valid.percent percent
  obtain ⟨out,same,laid⟩ := layout_field (l := 1) (text ['%']) valid (by rw [percent]; rfl) (by rw [whole]; decide) (by decide)
    (by decide)
  refine ⟨_,out,fun more => ?_,?_,laid⟩
  · rw [percent]
    rfl
  · rw [same,whole]
    rfl

-- A string of 2^31 bytes has a negative length for the precision and all its
-- bytes are put out.
theorem long_string (string : d.kind = .s) (terminated : 0 ∈ memory) (long : ¬(cString memory).length < 2 ^ 31)
    (memorySize : memory.length < 2 ^ 32) :
    ∃ b, (∀ more, convert num d.spec d.kind.byte (.string (some memory) :: more) = .body b more) ∧
      2 ^ 31 ≤ (layout d.spec b).1.length := by
  have inside : (cString memory).length ≤ memory.length := (List.takeWhile_prefix _).length_le
  refine ⟨_,string_measured num _ string terminated (if_neg fun both => ?_),?_⟩
  · have negative : (BitVec.ofNat 32 (cString memory).length).toInt < 0 := by
      rw [BitVec.toInt_eq_toNat_cond,BitVec.toNat_ofNat,Nat.mod_eq_of_lt (by omega),if_neg (by omega)]
      omega
    have low : 0 ≤ d.spec.prec.toInt := BitVec.sle_iff_toInt_le.mp both.1
    have high := BitVec.slt_iff_toInt_lt.mp both.2
    omega
  · have size : (BitVec.ofNat 32 (cString memory).length).toNat = (cString memory).length := by
      rw [BitVec.toNat_ofNat,Nat.mod_eq_of_lt (by omega)]
    unfold layout
    simp only [Bool.false_and,Bool.false_eq_true,if_false,List.length_append,List.length_take,size]
    omega

end

section
variable {d : Directive} {t : Turn} {num bytes memory : List Byte} {args : List Arg} {arg : Arg} {v : Int}
  {encode : BitVec 32 → List Byte}

-- The arguments that C99 has for a conversion that format does not refuse.
inductive Takes (d : Directive) : List Arg → Prop where
  | integer (arg : Arg) (v : Int) (kind : d.kind.integer = true) (value : d.integer arg = some v) : Takes d [arg]
  | character (x : BitVec 32) (kind : d.kind = .c) : Takes d [.int x]
  | string (memory : List Byte) (kind : d.kind = .s) : Takes d [.string (some memory)]
  | percent (kind : d.kind = .percent) : Takes d []

theorem prescribed_takes (valid : d.Valid) (served : d.Served) (prescribed : d.prescribed encode args = some bytes) :
    d.width.value ≤ bytes.length ∧ Takes d args := by
  rw [prescribed_served served.width served.precision] at prescribed
  by_cases integer : d.kind.integer = true
  · obtain ⟨width,arg,v,rfl,value⟩ := converted_args integer prescribed
    exact ⟨width,.integer arg v integer value⟩
  cases kind : d.kind with
  | c =>
    obtain ⟨width,x,rfl⟩ := converted_character kind prescribed
    exact ⟨width,.character x kind⟩
  | s =>
    obtain ⟨width,memory,rfl⟩ := converted_string kind prescribed
    exact ⟨width,.string memory kind⟩
  | percent =>
    have whole := valid.percent kind
    refine ⟨by rw [whole]; exact Nat.zero_le _,?_⟩
    rw [whole] at prescribed
    cases args with
    | nil => exact .percent kind
    | cons _ _ => cases prescribed
  | d | i | u | x | X =>
    rw [kind] at integer
    exact absurd rfl integer

theorem integer_nonstring (value : d.integer arg = some v) : arg ≠ .string (some memory) := by
  rintro rfl
  unfold Directive.integer at value
  cases which : d.length <;> rw [which] at value <;> cases value

theorem turn_writes (buffer : num.length = 24) (valid : t.Valid) (served : t.directive.Served)
    (prescribed : t.directive.prescribed encode t.args = some bytes) (bounded : bytes.length < 2 ^ 31) (terminated : t.Terminated)
    (short : t.Short) : Writes encode num t.directive t.args := by
  obtain ⟨run,d,args⟩ := t
  obtain ⟨width,takes⟩ := prescribed_takes valid.directive served prescribed
  have room := Nat.lt_of_le_of_lt width bounded
  cases takes with
  | integer arg v kind value => exact integer_writes buffer served kind room value
  | character x kind => exact character_writes valid.directive served kind room
  | string memory kind => exact string_writes valid.directive served kind room (terminated memory (.head _)) (short memory (.head _))
  | percent kind => exact percent_writes valid.directive kind

theorem turn_long (num : List Byte) (valid : t.Valid) (served : t.directive.Served)
    (prescribed : t.directive.prescribed encode t.args = some bytes) (terminated : t.Terminated) (long : ¬t.Short) :
    ∃ b, (∀ more, convert num t.directive.spec t.directive.kind.byte (t.args ++ more) = .body b more) ∧
      2 ^ 31 ≤ (layout t.directive.spec b).1.length := by
  obtain ⟨run,d,args⟩ := t
  obtain ⟨_,takes⟩ := prescribed_takes valid.directive served prescribed
  cases takes with
  | integer arg v kind value =>
    exact absurd (fun memory inside => absurd (List.mem_singleton.mp inside).symm (integer_nonstring value)) long
  | character x kind => exact absurd (fun memory inside => by cases List.mem_singleton.mp inside) long
  | string memory kind =>
    refine long_string kind (terminated memory (.head _)) (fun short => long fun other inside => ?_) (valid.memory memory (.head _))
    cases List.mem_singleton.mp inside
    exact short
  | percent kind => exact absurd (fun memory inside => by cases inside) long

theorem turn_traps (valid : t.Valid) (served : t.directive.Served) (prescribed : t.directive.prescribed encode t.args = some bytes)
    (unterminated : ¬t.Terminated) (more : List Arg) :
    convert num t.directive.spec t.directive.kind.byte (t.args ++ more) = .traps := by
  obtain ⟨run,d,args⟩ := t
  obtain ⟨_,takes⟩ := prescribed_takes valid.directive served prescribed
  cases takes with
  | integer arg v kind value =>
    exact absurd (fun memory inside => absurd (List.mem_singleton.mp inside).symm (integer_nonstring value)) unterminated
  | character x kind => exact absurd (fun memory inside => by cases List.mem_singleton.mp inside) unterminated
  | string memory kind =>
    have endless : 0 ∉ memory := fun ends => unterminated fun other inside => by
      cases List.mem_singleton.mp inside
      exact ends
    show convert num d.spec d.kind.byte (.string (some memory) :: more) = _
    rw [kind,convert_string,strlen,if_neg endless]
    rfl
  | percent kind => exact absurd (fun memory inside => by cases inside) unterminated

end

end SandboxStack.Printf
