import SandboxStack.PrintfTurns

namespace SandboxStack.Printf
open NumberText Stdio

section
variable {num run rest after : List Byte} {args : List Arg} {count : BitVec 32} {spec : Spec} {c : Byte}

theorem format_nil : format num [] args count = .returns [] count := by
  unfold format
  rfl

-- The ordinary bytes up to the next % or the end.
theorem format_run (ordinary : 37 ∉ run) (stop : ∀ b, rest.head? = some b → b = 37) :
    format num (run ++ rest) args count =
      (ordinaryPiece run).foldr Outcome.after (format num rest args (count + BitVec.ofNat 32 run.length)) := by
  cases run with
  | nil =>
    show format num rest args count = format num rest args (count + 0#32)
    rw [BitVec.add_zero]
  | cons b run =>
    have other : b ≠ 37 := fun same => ordinary (same ▸ .head _)
    obtain ⟨taken,left⟩ := span_run (p := (· ≠ 37)) run rest
      (fun b inside => decide_eq_true fun same => ordinary (same ▸ .tail _ inside)) fun b first => by simp [stop b first]
    show format num (b :: (run ++ rest)) args count = _
    rw [format,if_pos other,taken,left]
    rfl

theorem format_directive (read : readSpec rest = (spec,c :: after)) :
    format num (37 :: rest) args count =
      match convert num spec c args with
      | .aborts => .aborts
      | .traps => .traps
      | .body b args => (format num after args (count + (layout spec b).2)).after (layout spec b).1 := by
  rw [format,if_neg (not_not.mpr rfl)]
  split
  · rename_i none
    rw [read] at none
    cases none
  · rename_i c' after' found
    rw [read] at found ⊢
    cases found
    cases convert num spec c args <;> rfl

end

-- A conversion for which format aborts is reached: no turn before it reads a
-- string past the end of the memory.
def refusedTurns : List Turn → Prop
  | [] => False
  | t :: rest => t.directive.Refused ∨ t.Terminated ∧ refusedTurns rest

-- What a turn of the loop puts out when it neither aborts nor traps.
structure Turn.Puts (encode : BitVec 32 → List Byte) (t : Turn) (piece : List Byte) : Prop where
  bare : t.Short → t.directive.bare.prescribed encode t.args = some piece
  long : ¬t.Short → 2 ^ 31 ≤ piece.length

inductive Outputs (encode : BitVec 32 → List Byte) (last : List Byte) : List Turn → List (List Byte) → Prop where
  | last : Outputs encode last [] (ordinaryPiece last)
  | turn (t : Turn) (rest : List Turn) (piece : List Byte) (ps : List (List Byte)) (puts : t.Puts encode piece)
    (later : Outputs encode last rest ps) : Outputs encode last (t :: rest) (ordinaryPiece t.run ++ piece :: ps)

section
variable {t : Turn} {turns : List Turn} {num bytes rest last : List Byte} {pieces ps : List (List Byte)} {more : List Arg}
  {count n : BitVec 32} {o : Outcome} {encode : BitVec 32 → List Byte}

theorem after_ends : pieces.foldr Outcome.after .aborts = .aborts ∧ pieces.foldr Outcome.after .traps = .traps := by
  induction pieces with
  | nil => exact ⟨rfl,rfl⟩
  | cons piece pieces ih =>
    rw [List.foldr_cons,List.foldr_cons,ih.1,ih.2]
    exact ⟨rfl,rfl⟩

theorem after_returns : pieces.foldr Outcome.after (.returns ps n) = .returns (pieces ++ ps) n := by
  induction pieces with
  | nil => rfl
  | cons piece pieces ih =>
    rw [List.foldr_cons,ih]
    rfl

theorem ordinaryPiece_flatten (run : List Byte) : (ordinaryPiece run).flatten = run := by
  unfold ordinaryPiece
  split
  · rename_i none
    rw [none]
    rfl
  · simp

-- A turn that is refused, traps, or puts out a piece.
theorem turn_steps (rest : List Byte) (more : List Arg) (count : BitVec 32) (valid : t.Valid)
    (prescribed : t.directive.prescribed encode t.args = some bytes) (buffer : num.length = 24) (bounded : bytes.length < 2 ^ 31) :
    (t.directive.Refused ∧ format num (t.text ++ rest) (t.args ++ more) count = .aborts) ∨
    (¬t.directive.Refused ∧ ¬t.Terminated ∧ format num (t.text ++ rest) (t.args ++ more) count = .traps) ∨
    (¬t.directive.Refused ∧ t.Terminated ∧ ∃ piece k, t.Puts encode piece ∧ (t.Short → k = BitVec.ofNat 32 piece.length) ∧
      format num (t.text ++ rest) (t.args ++ more) count =
        (ordinaryPiece t.run ++ [piece]).foldr Outcome.after (format num rest more (count + BitVec.ofNat 32 t.run.length + k))) := by
  have run : format num (t.text ++ rest) (t.args ++ more) count = (ordinaryPiece t.run).foldr Outcome.after
      (format num (37 :: (t.directive.bytes ++ rest)) (t.args ++ more) (count + BitVec.ofNat 32 t.run.length)) := by
    rw [Turn.text,List.append_assoc]
    exact format_run valid.ordinary.1 fun b first => by cases first; rfl
  by_cases refused : t.directive.Refused
  · obtain ⟨spec,c,after,read,aborts⟩ := readSpec_refused rest valid.directive refused
    refine .inl ⟨refused,?_⟩
    rw [run,format_directive read,aborts]
    exact after_ends.1
  have served := served_iff.mpr refused
  have read := readSpec_served rest valid.directive served
  by_cases terminated : t.Terminated
  · refine .inr (.inr ⟨refused,terminated,?_⟩)
    by_cases short : t.Short
    · obtain ⟨b,out,converts,same,laid⟩ := turn_writes buffer valid served prescribed bounded terminated short
      refine ⟨out,BitVec.ofNat 32 out.length,⟨fun _ => same,fun long => absurd short long⟩,fun _ => rfl,?_⟩
      rw [run,format_directive read,converts,List.foldr_append]
      dsimp only
      rw [laid]
      rfl
    · obtain ⟨b,converts,long⟩ := turn_long num valid served prescribed terminated short
      refine ⟨(layout t.directive.spec b).1,(layout t.directive.spec b).2,⟨fun brief => absurd brief short,fun _ => long⟩,
        fun brief => absurd brief short,?_⟩
      rw [run,format_directive read,converts,List.foldr_append]
      rfl
  · refine .inr (.inl ⟨refused,terminated,?_⟩)
    rw [run,format_directive read,turn_traps valid served prescribed terminated]
    exact after_ends.2

theorem format_last (ordinary : 37 ∉ last) (args : List Arg) :
    format num last args count = .returns (ordinaryPiece last) (count + BitVec.ofNat 32 last.length) := by
  have run : format num (last ++ []) args count = _ := format_run ordinary fun b first => by cases first
  rw [List.append_nil] at run
  rw [run,format_nil,after_returns,List.append_nil]

-- The loop aborts, traps or puts out the pieces of all turns.
theorem format_runs (more : List Arg) (count : BitVec 32) (buffer : num.length = 24) (valid : ∀ t ∈ turns, t.Valid)
    (ordinary : 37 ∉ last) (prescribed : turnsPrescribed encode turns last = some pieces) (bounded : pieces.flatten.length < 2 ^ 31) :
    (refusedTurns turns ∧ format num (turnsText turns last) (turnsArgs turns more) count = .aborts) ∨
    (¬refusedTurns turns ∧ ¬(∀ t ∈ turns, t.Terminated) ∧
      format num (turnsText turns last) (turnsArgs turns more) count = .traps) ∨
    (¬refusedTurns turns ∧ (∀ t ∈ turns, t.Terminated) ∧ ∃ ps n, Outputs encode last turns ps ∧
      ((∀ t ∈ turns, t.Short) → n = count + BitVec.ofNat 32 ps.flatten.length) ∧
      format num (turnsText turns last) (turnsArgs turns more) count = .returns ps n) := by
  induction turns generalizing pieces count with
  | nil =>
    refine .inr (.inr ⟨id,fun t inside => (by cases inside),_,_,.last,fun _ => ?_,format_last ordinary _⟩)
    rw [ordinaryPiece_flatten]
  | cons t rest ih =>
    obtain ⟨bytes,text,others⟩ := Option.bind_eq_some_iff.mp prescribed
    obtain ⟨tail,remaining,same⟩ := Option.bind_eq_some_iff.mp others
    cases same
    simp only [List.flatten_append,List.flatten_cons,List.length_append] at bounded
    rcases turn_steps (turnsText rest last) (turnsArgs rest more) count (valid t (.head _)) text buffer (by omega)
      with ⟨refused,aborts⟩ | ⟨served,unterminated,traps⟩ | ⟨served,terminated,piece,k,puts,counted,goes⟩
    · exact .inl ⟨.inl refused,aborts⟩
    · exact .inr (.inl ⟨fun reached => reached.elim served fun both => unterminated both.1,
        fun all => unterminated (all t (.head _)),traps⟩)
    · have reached : refusedTurns (t :: rest) ↔ refusedTurns rest :=
        ⟨fun reached => reached.elim (fun refused => absurd refused served) And.right,fun reached => .inr ⟨terminated,reached⟩⟩
      rw [turnsText,turnsArgs,goes,reached]
      rcases @ih tail (count + BitVec.ofNat 32 t.run.length + k) (fun u inside => valid u (.tail _ inside)) remaining (by omega)
        with ⟨refused,aborts⟩ | ⟨unrefused,unterminated,traps⟩ | ⟨unrefused,all,ps,n,outputs,total,returns⟩
      · exact .inl ⟨refused,by rw [aborts,after_ends.1]⟩
      · exact .inr (.inl ⟨unrefused,fun all => unterminated fun u inside => all u (.tail _ inside),by rw [traps,after_ends.2]⟩)
      · have whole := List.forall_mem_cons.mpr ⟨terminated,all⟩
        refine .inr (.inr ⟨unrefused,whole,_,n,.turn t rest piece ps puts outputs,fun short => ?_,?_⟩)
        · have whole : (ordinaryPiece t.run ++ piece :: ps).flatten.length = t.run.length + piece.length + ps.flatten.length := by
            rw [List.flatten_append,List.flatten_cons,List.length_append,List.length_append,ordinaryPiece_flatten,Nat.add_assoc]
          rw [total fun u inside => short u (.tail _ inside),counted (short t (.head _)),whole]
          simp only [BitVec.ofNat_add,BitVec.add_assoc]
        · rw [returns,after_returns,List.append_assoc]
          rfl

end

-- The integer that the conversion converts.
def Turn.value (t : Turn) : Option Int :=
  match t.args with
  | [arg] => t.directive.integer arg
  | _ => none

-- The digits that are put out without the precision: those of the number and the zeros of the flag.
def Directive.places (d : Directive) (v : Int) : Nat :=
  let written := (d.kind.digits v.natAbs).length
  if Flag.zero ∈ d.flags ∧ Flag.minus ∉ d.flags then max written (d.width.value - (d.sign v).length) else written

-- The turns of which format puts out what C99 prescribes.
structure Turn.Kept (encode : BitVec 32 → List Byte) (t : Turn) : Prop where
  terminated : t.Terminated
  short : t.Short
  -- An integer with a precision has as many digits as the precision asks for.
  digits : ∀ v p, t.directive.kind.integer = true → t.value = some v → t.directive.precision.given = some p →
    (t.directive.digits (some p) v).length = t.directive.places v
  -- The bytes of a wide character or string are those that it has as a plain one.
  narrow : t.directive.kind = .c ∨ t.directive.kind = .s → t.directive.length = .l →
    ({t.directive with length := .plain} : Directive).prescribed encode t.args = t.directive.prescribed encode t.args

section
variable {d : Directive} {bytes : List Byte} {args : List Arg} {arg : Arg} {v : Int} {w n p base : Nat} {left : Bool} {kind : Kind}
  {spelling : List Char} {encode : BitVec 32 → List Byte}

theorem spelled_solid (large : 1 < base) (solid : ∀ d < base, BitVec.ofNat 8 (spelling.getD d '0').toNat ≠ 32) :
    32 ∉ spelled spelling base n := by
  intro blank
  obtain ⟨d,digit,same⟩ := List.mem_map.mp blank
  refine solid d ?_ same
  split at digit
  · rw [List.mem_singleton.mp digit]
    omega
  · exact Nat.digits_lt_base large (List.mem_reverse.mp digit)

theorem digits_solid : 32 ∉ kind.digits n := by
  cases kind with
  | x =>
    show 32 ∉ text (lower (written 16 n))
    rw [← spelled_lower]
    exact spelled_solid (by decide) (by decide)
  | X =>
    show 32 ∉ text (written 16 n)
    rw [← spelled_upper]
    exact spelled_solid (by decide) (by decide)
  | d | i | u | c | s | percent =>
    show 32 ∉ text (written 10 n)
    rw [← spelled_decimal]
    exact spelled_solid (by decide) (by decide)

theorem precise_solid (precision : Option Nat) : 32 ∉ d.digits precision v := by
  unfold Directive.digits precise
  split
  · exact List.not_mem_nil
  · intro blank
    rcases List.mem_append.mp blank with zero | digit
    · exact absurd (List.eq_of_mem_replicate zero) (by decide)
    · exact digits_solid digit

theorem filter_solid (solid : 32 ∉ bytes) : bytes.filter (· ≠ 32) = bytes :=
  List.filter_eq_self.mpr fun _ inside => decide_eq_true fun same => solid (same ▸ inside)

-- The padding apart, a field is its bytes.
theorem field_solid (solid : 32 ∉ bytes) : (field left w bytes).filter (· ≠ 32) = bytes := by
  unfold field
  split <;> rw [List.filter_append,filter_solid solid] <;> simp

theorem precision_digits_length :
    (d.digits (some p) v).length = if v = 0 ∧ p = 0 then 0 else max p (d.kind.digits v.natAbs).length := by
  unfold Directive.digits precise
  by_cases zero : v = 0 ∧ p = 0
  · rw [if_pos zero,if_pos ⟨zero.1,congrArg some zero.2⟩]
    rfl
  · rw [if_neg zero,if_neg fun both => zero ⟨both.1,Option.some.inj both.2⟩,List.length_append,List.length_replicate]
    show p - _ + _ = _
    omega

-- Digits of the length that the number has are the number's digits.
theorem precision_digits_same (one : 1 ≤ (d.kind.digits v.natAbs).length) (n : Nat)
    (same : (d.digits (some p) v).length = max (d.kind.digits v.natAbs).length n) :
    d.digits (some p) v = List.replicate (n - (d.kind.digits v.natAbs).length) 48 ++ d.kind.digits v.natAbs := by
  rw [precision_digits_length] at same
  split at same
  · omega
  · rename_i other
    unfold Directive.digits precise
    rw [if_neg fun both => other ⟨both.1,Option.some.inj both.2⟩]
    show List.replicate (p - _) 48 ++ _ = _
    congr 2
    omega

theorem unpointed_digits (served : ∀ flag ∈ d.flags, flag.refused = false) (value : d.integer arg = some v) :
    d.unpointed v = field (decide (Flag.minus ∈ d.flags)) d.width.value (d.sign v ++ d.digits (some p) v) ↔
      (d.digits (some p) v).length = d.places v := by
  have one := (digits_bounded d.kind (integer_magnitude value)).1
  have sign := (sign_served (v := v) served).1
  have signSolid : 32 ∉ d.sign v := by
    rw [sign]
    split <;> decide
  have whole : 32 ∉ d.sign v ++ d.digits (some p) v := fun blank => (List.mem_append.mp blank).elim signSolid (precise_solid _)
  unfold Directive.unpointed Directive.places
  rw [← sign]
  dsimp only
  by_cases zeroed : Flag.zero ∈ d.flags ∧ Flag.minus ∉ d.flags
  · rw [if_pos zeroed,if_pos (by simpa using zeroed),decide_eq_false zeroed.2]
    constructor
    · intro same
      have filled : 32 ∉ zeroField d.width.value (d.sign v) (d.kind.digits v.natAbs) := by
        intro blank
        rcases List.mem_append.mp blank with front | digit
        · exact (List.mem_append.mp front).elim signSolid fun zero => absurd (List.eq_of_mem_replicate zero) (by decide)
        · exact digits_solid digit
      have filtered := congrArg (List.filter (· ≠ 32)) same
      rw [field_solid whole,filter_solid filled] at filtered
      have lengths := congrArg List.length filtered
      rw [zeroField_length,List.length_append] at lengths
      omega
    · intro same
      rw [precision_digits_same one _ same]
      have zeros : d.width.value - ((d.sign v).length + (d.kind.digits v.natAbs).length) =
          d.width.value - (d.sign v).length - (d.kind.digits v.natAbs).length := Nat.sub_add_eq _ _ _
      have full : d.width.value - (d.sign v ++ (List.replicate (d.width.value - (d.sign v).length - (d.kind.digits v.natAbs).length) 48 ++
          d.kind.digits v.natAbs)).length = 0 := by
        simp only [List.length_append,List.length_replicate]
        omega
      rw [zeroField,zeros,field,if_neg (by decide),full,List.append_assoc]
      rfl
  · rw [if_neg zeroed,if_neg (by simpa using zeroed)]
    constructor
    · intro same
      have plain : 32 ∉ d.sign v ++ d.kind.digits v.natAbs := fun blank => (List.mem_append.mp blank).elim signSolid digits_solid
      have filtered := congrArg (List.filter (· ≠ 32)) same
      rw [field_solid whole,field_solid plain] at filtered
      rw [List.append_cancel_left filtered]
    · intro same
      have digits := precision_digits_same one 0 (by rw [same,Nat.max_zero])
      rw [Nat.zero_sub] at digits
      rw [digits]
      rfl

theorem text_same (valid : d.Valid) (text : d.kind = .c ∨ d.kind = .s) :
    d.bare.prescribed encode args = d.prescribed encode args ↔
      (∀ arg v p, args = [arg] → d.kind.integer = true → d.integer arg = some v → d.precision.given = some p →
        (d.digits (some p) v).length = d.places v) ∧
      (d.kind = .c ∨ d.kind = .s → d.length = .l →
        ({d with length := .plain} : Directive).prescribed encode args = d.prescribed encode args) := by
  have plain : d.bare = {d with length := .plain} := by
    rcases text with kind | kind <;> simp [Directive.bare,kind,Kind.integer]
  have other : d.kind.integer ≠ true := by
    rcases text with kind | kind <;> rw [kind] <;> decide
  rw [plain]
  refine ⟨fun same => ⟨fun _ _ _ _ integer => absurd integer other,fun _ _ => same⟩,fun kept => ?_⟩
  rcases valid.wide text with narrow | wide
  · rw [← narrow]
  · exact kept.2 text wide

theorem takes_same (encode : BitVec 32 → List Byte) (valid : d.Valid) (served : d.Served) (takes : Takes d args) :
    d.bare.prescribed encode args = d.prescribed encode args ↔
      (∀ arg v p, args = [arg] → d.kind.integer = true → d.integer arg = some v → d.precision.given = some p →
        (d.digits (some p) v).length = d.places v) ∧
      (d.kind = .c ∨ d.kind = .s → d.length = .l →
        ({d with length := .plain} : Directive).prescribed encode args = d.prescribed encode args) := by
  cases takes with
  | integer arg v kind value =>
    have pointless : ¬(d.kind = .c ∨ d.kind = .s) := by
      rintro (other | other) <;> rw [other] at kind <;> cases kind
    obtain ⟨sign,base⟩ := sign_served (v := v) served.flags
    rw [bare_integer served kind value,prescribed_served served.width served.precision,converted_integer kind,value,Option.map_some,
      Option.some_inj,base,List.append_nil]
    cases given : d.precision.given with
    | none =>
      refine ⟨fun _ => ⟨fun _ _ _ _ _ _ absent => (by cases absent),fun text => absurd text pointless⟩,fun _ => ?_⟩
      rw [digits_unpointed value,sign]
      unfold Directive.unpointed
      simp
    | some p =>
      rw [if_neg fun both => by cases both.2.2]
      have explicit := unpointed_digits (p := p) served.flags value
      refine explicit.trans ⟨fun same => ⟨?_,fun text => absurd text pointless⟩,fun kept => kept.1 arg v p rfl kind value rfl⟩
      intro arg' v' p' args' _ value' given'
      cases args'
      cases given'
      cases value.symm.trans value'
      exact same
  | character x kind => exact text_same valid (.inl kind)
  | string memory kind => exact text_same valid (.inr kind)
  | percent kind =>
    have bare : d.bare = d := by
      rw [valid.percent kind]
      rfl
    rw [bare]
    refine ⟨fun _ => ⟨fun _ _ _ absent => (by cases absent),?_⟩,fun _ => rfl⟩
    rintro (other | other) <;> rw [other] at kind <;> cases kind

end

section
variable {t : Turn} {num beyond bytes : List Byte} {more : List Arg} {pieces : List (List Byte)} {f : Format}
  {encode : BitVec 32 → List Byte}

theorem kept_unchanged (valid : t.Valid) (served : t.directive.Served) (prescribed : t.directive.prescribed encode t.args = some bytes) :
    (t.Terminated ∧ t.Short ∧ t.directive.bare.prescribed encode t.args = t.directive.prescribed encode t.args) ↔
      t.Kept encode := by
  have same := takes_same encode valid.directive served (prescribed_takes valid.directive served prescribed).2
  have value : ∀ v, t.value = some v ↔ ∃ arg, t.args = [arg] ∧ t.directive.integer arg = some v := by
    intro v
    unfold Turn.value
    split
    · rename_i arg single
      rw [single]
      exact ⟨fun value => ⟨arg,rfl,value⟩,fun ⟨arg',other,value⟩ => by cases other; exact value⟩
    · rename_i other
      exact ⟨fun absent => (by cases absent),fun ⟨arg,single,_⟩ => absurd single (other arg)⟩
  constructor
  · rintro ⟨terminated,short,unchanged⟩
    obtain ⟨digits,narrow⟩ := same.mp unchanged
    refine ⟨terminated,short,fun v p integer converts given => ?_,narrow⟩
    obtain ⟨arg,single,converted⟩ := (value v).mp converts
    exact digits arg v p single integer converted given
  · intro kept
    exact ⟨kept.terminated,kept.short,same.mpr ⟨fun arg v p single integer converted given =>
      kept.digits v p integer ((value v).mpr ⟨arg,single,converted⟩) given,kept.narrow⟩⟩

-- The program aborts, or writes the bytes that C99 prescribes and returns their number.
def Format.Conforms (encode : BitVec 32 → List Byte) (num beyond : List Byte) (more : List Arg) (f : Format) : Prop :=
  vfprintf num (f.text ++ 0 :: beyond) (f.args more) = .aborts ∨
    ∃ pieces ps count, f.prescribed encode = some pieces ∧
      vfprintf num (f.text ++ 0 :: beyond) (f.args more) = .returns ps count ∧
      ps.flatten = pieces.flatten ∧ count.toNat = ps.flatten.length

-- It does so for each part of the format.
def Format.ConformsInParts (encode : BitVec 32 → List Byte) (num beyond : List Byte) (more : List Arg) (f : Format) : Prop :=
  vfprintf num (f.text ++ 0 :: beyond) (f.args more) = .aborts ∨
    ∃ pieces count, f.prescribed encode = some pieces ∧
      vfprintf num (f.text ++ 0 :: beyond) (f.args more) = .returns pieces count ∧ count.toNat = pieces.flatten.length

def Turn.bare (t : Turn) : Turn := {t with directive := t.directive.bare}
def Format.bare (f : Format) : Format := {f with turns := f.turns.map Turn.bare}

theorem bytes_nonzero (d : Directive) : 0 ∉ d.bytes := by
  have amount : ∀ a : Amount, 0 ∉ a.bytes := by
    rintro (_ | _ | ds) null
    · cases null
    · exact absurd (List.mem_singleton.mp null) (by decide)
    · obtain ⟨e,_,same⟩ := List.mem_map.mp null
      exact (by decide : ∀ e, digitByte e ≠ 0) e same
  have flags : 0 ∉ d.flags.map Flag.byte := by
    intro null
    obtain ⟨flag,_,same⟩ := List.mem_map.mp null
    cases flag <;> cases same
  have pointed : 0 ∉ d.precision.pointed := by
    unfold Amount.pointed
    split
    · exact List.not_mem_nil
    · exact fun null => (List.mem_cons.mp null).elim (by decide) (amount _)
  have length : 0 ∉ d.length.bytes := by
    cases d.length <;> decide
  have kind : 0 ∉ [d.kind.byte] := by
    cases d.kind <;> decide
  simp only [Directive.bytes,List.mem_append,not_or]
  exact ⟨⟨⟨⟨flags,amount _⟩,pointed⟩,length⟩,kind⟩

theorem text_nonzero {turns : List Turn} {last : List Byte} (valid : ∀ t ∈ turns, t.Valid) (ordinary : 0 ∉ last) :
    0 ∉ turnsText turns last := by
  induction turns with
  | nil => exact ordinary
  | cons t rest ih =>
    simp only [turnsText,Turn.text,List.mem_append,List.mem_cons,not_or]
    exact ⟨⟨(valid t (.head _)).ordinary.2,by decide,bytes_nonzero _⟩,ih fun u inside => valid u (.tail _ inside)⟩

theorem turn_prescribed {turns : List Turn} {last : List Byte} (prescribed : turnsPrescribed encode turns last = some pieces)
    (inside : t ∈ turns) : ∃ bytes, t.directive.prescribed encode t.args = some bytes := by
  induction turns generalizing pieces with
  | nil => cases inside
  | cons u rest ih =>
    obtain ⟨bytes,text,others⟩ := Option.bind_eq_some_iff.mp prescribed
    obtain ⟨tail,remaining,_⟩ := Option.bind_eq_some_iff.mp others
    rcases List.mem_cons.mp inside with rfl | later
    · exact ⟨bytes,text⟩
    · exact ih remaining later

theorem all_served {turns : List Turn} (unrefused : ¬refusedTurns turns) (terminated : ∀ t ∈ turns, t.Terminated) :
    ∀ t ∈ turns, t.directive.Served := by
  induction turns with
  | nil => exact fun t inside => by cases inside
  | cons u rest ih =>
    intro t inside
    rcases List.mem_cons.mp inside with rfl | later
    · exact served_iff.mpr fun refused => unrefused (.inl refused)
    · exact ih (fun reached => unrefused (.inr ⟨terminated u (.head _),reached⟩)) (fun v other => terminated v (.tail _ other))
        t later

theorem outputs_bare {turns : List Turn} {last : List Byte} {ps : List (List Byte)} (outputs : Outputs encode last turns ps)
    (short : ∀ t ∈ turns, t.Short) : turnsPrescribed encode (turns.map Turn.bare) last = some ps := by
  induction outputs with
  | last => rfl
  | turn t rest piece ps puts later ih =>
    show (t.directive.bare.prescribed encode t.args).bind _ = _
    rw [puts.bare (short t (.head _)),Option.bind_some]
    show (turnsPrescribed encode (rest.map Turn.bare) last).bind _ = _
    rw [ih fun u inside => short u (.tail _ inside)]
    rfl

theorem outputs_long {turns : List Turn} {last : List Byte} {ps : List (List Byte)} (outputs : Outputs encode last turns ps)
    (long : ¬∀ t ∈ turns, t.Short) : 2 ^ 31 ≤ ps.flatten.length := by
  induction outputs with
  | last => exact absurd (fun t inside => by cases inside) long
  | turn t rest piece ps puts later ih =>
    rw [List.flatten_append,List.flatten_cons,List.length_append,List.length_append]
    by_cases short : t.Short
    · have others := ih fun all => long (List.forall_mem_cons.mpr ⟨short,all⟩)
      omega
    · have own := puts.long short
      omega

theorem outputs_same {turns : List Turn} {last : List Byte} {ps : List (List Byte)} (outputs : Outputs encode last turns ps)
    (prescribed : turnsPrescribed encode turns last = some pieces) (bounded : pieces.flatten.length < 2 ^ 31) :
    ps = pieces ↔ ∀ t ∈ turns, t.Short ∧ t.directive.bare.prescribed encode t.args = t.directive.prescribed encode t.args := by
  induction outputs generalizing pieces with
  | last =>
    cases prescribed
    exact ⟨fun _ t inside => (by cases inside),fun _ => rfl⟩
  | turn t rest piece ps puts later ih =>
    obtain ⟨bytes,text,others⟩ := Option.bind_eq_some_iff.mp prescribed
    obtain ⟨tail,remaining,same⟩ := Option.bind_eq_some_iff.mp others
    cases same
    simp only [List.flatten_append,List.flatten_cons,List.length_append] at bounded
    have first : piece = bytes ↔ t.Short ∧ t.directive.bare.prescribed encode t.args = t.directive.prescribed encode t.args := by
      by_cases short : t.Short
      · rw [puts.bare short,text,Option.some_inj]
        exact ⟨fun same => ⟨short,same⟩,And.right⟩
      · have long := puts.long short
        refine ⟨fun same => ?_,fun both => absurd both.1 short⟩
        rw [same] at long
        omega
    rw [List.forall_mem_cons,← first,← ih remaining (by omega),List.append_cancel_left_eq,List.cons.injEq]

section
variable (buffer : num.length = 24) (valid : f.Valid) (prescribed : f.prescribed encode = some pieces)
  (bounded : pieces.flatten.length < 2 ^ 31)

include buffer valid prescribed bounded

theorem vfprintf_runs (beyond : List Byte) (more : List Arg) :
    (refusedTurns f.turns ∧ vfprintf num (f.text ++ 0 :: beyond) (f.args more) = .aborts) ∨
    (¬refusedTurns f.turns ∧ ¬(∀ t ∈ f.turns, t.Terminated) ∧ vfprintf num (f.text ++ 0 :: beyond) (f.args more) = .traps) ∨
    (¬refusedTurns f.turns ∧ (∀ t ∈ f.turns, t.Terminated) ∧ ∃ ps n, Outputs encode f.last f.turns ps ∧
      ((∀ t ∈ f.turns, t.Short) → n = BitVec.ofNat 32 ps.flatten.length) ∧
      vfprintf num (f.text ++ 0 :: beyond) (f.args more) = .returns ps n) := by
  have string : cString (f.text ++ 0 :: beyond) = f.text :=
    (span_run (p := (· ≠ 0)) f.text (0 :: beyond)
      (fun b inside => decide_eq_true fun null => text_nonzero valid.turns valid.last.2 (null ▸ inside))
      fun b first => by cases first; rfl).1
  have runs := format_runs more 0 buffer valid.turns valid.last.1 prescribed bounded
  have count : ∀ n : Nat, (0 : BitVec 32) + BitVec.ofNat 32 n = BitVec.ofNat 32 n := fun n => BitVec.zero_add _
  simp only [count] at runs
  rw [vfprintf,string]
  exact runs

theorem format_conforms : f.Conforms encode num beyond more ↔ refusedTurns f.turns ∨
    (∀ t ∈ f.turns, t.Terminated ∧ t.Short) ∧
      (f.bare.prescribed encode).map List.flatten = (f.prescribed encode).map List.flatten := by
  unfold Format.Conforms
  rcases vfprintf_runs buffer valid prescribed bounded beyond more
    with ⟨reached,aborts⟩ | ⟨unreached,unterminated,traps⟩ | ⟨unreached,terminated,ps,n,outputs,counted,returns⟩
  · exact ⟨fun _ => .inl reached,fun _ => .inl aborts⟩
  · rw [traps]
    refine ⟨fun either => ?_,fun either => ?_⟩
    · rcases either with absent | ⟨_,_,_,_,absent,_⟩ <;> cases absent
    · exact either.elim (fun reached => absurd reached unreached) fun all => absurd (fun t inside => (all.1 t inside).1) unterminated
  · rw [returns]
    constructor
    · rintro (absent | ⟨pieces',ps',count',same,equal,bytes,size⟩)
      · cases absent
      · cases equal
        cases prescribed.symm.trans same
        have short : ∀ t ∈ f.turns, t.Short := by
          by_contra long
          have many := outputs_long outputs long
          rw [bytes] at many
          omega
        refine .inr ⟨fun t inside => ⟨terminated t inside,short t inside⟩,?_⟩
        rw [prescribed,Format.prescribed,Format.bare,outputs_bare outputs short,Option.map_some,Option.map_some,bytes]
    · rintro (reached | ⟨all,bytes⟩)
      · exact absurd reached unreached
      · have short := fun t inside => (all t inside).2
        rw [prescribed,Format.prescribed,Format.bare,outputs_bare outputs short,Option.map_some,Option.map_some,Option.some_inj] at bytes
        refine .inr ⟨pieces,ps,n,prescribed,rfl,bytes,?_⟩
        rw [counted short,bytes,BitVec.toNat_ofNat,Nat.mod_eq_of_lt (by omega)]

theorem parts_conform : f.ConformsInParts encode num beyond more ↔ refusedTurns f.turns ∨ ∀ t ∈ f.turns, t.Kept encode := by
  unfold Format.ConformsInParts
  rcases vfprintf_runs buffer valid prescribed bounded beyond more
    with ⟨reached,aborts⟩ | ⟨unreached,unterminated,traps⟩ | ⟨unreached,terminated,ps,n,outputs,counted,returns⟩
  · exact ⟨fun _ => .inl reached,fun _ => .inl aborts⟩
  · rw [traps]
    refine ⟨fun either => ?_,fun either => ?_⟩
    · rcases either with absent | ⟨_,_,_,absent,_⟩ <;> cases absent
    · exact either.elim (fun reached => absurd reached unreached) fun kept =>
        absurd (fun t inside => (kept t inside).terminated) unterminated
  · have served := all_served unreached terminated
    have kept : (∀ t ∈ f.turns, t.Kept encode) ↔ ps = pieces := by
      rw [outputs_same outputs prescribed bounded]
      refine forall₂_congr fun t inside => ?_
      obtain ⟨bytes,own⟩ := turn_prescribed prescribed inside
      rw [← kept_unchanged (valid.turns t inside) (served t inside) own]
      exact ⟨And.right,fun both => ⟨terminated t inside,both⟩⟩
    rw [returns,kept]
    constructor
    · rintro (absent | ⟨pieces',count',same,equal,_⟩)
      · cases absent
      · cases equal
        exact .inr (Option.some.inj (same.symm.trans prescribed))
    · rintro (reached | same)
      · exact absurd reached unreached
      · have short := fun t inside => (kept.mpr same t inside).short
        subst same
        refine .inr ⟨ps,n,prescribed,rfl,?_⟩
        rw [counted short,BitVec.toNat_ofNat,Nat.mod_eq_of_lt (by omega)]

end

end

namespace Controls

def buffer : List Byte := List.replicate 24 0
def ascii (w : BitVec 32) : List Byte := [w.setWidth 8]

-- printf("%05d|%-4.2s\n", -42, "abc")
def line : Format where
  turns := [⟨[],⟨[.zero],.digits [5],.absent,.plain,.d⟩,[.int (-42)]⟩,
    ⟨text ['|'],⟨[.minus],.digits [4],.digits [2],.plain,.s⟩,[.string (some (text ['a','b','c'] ++ [0]))]⟩]
  last := [10]

-- printf("%.3d", 7)
def threeDigits : Format where
  turns := [⟨[],⟨[],.absent,.digits [3],.plain,.d⟩,[.int 7]⟩]
  last := []

theorem line_prescribed : line.prescribed ascii = some [text ['-','0','0','4','2'],text ['|'],text ['a','b',' ',' '],[10]] := by
  decide

theorem line_valid : line.Valid where
  turns t inside := by
    simp only [line,List.mem_cons,List.not_mem_nil,or_false] at inside
    rcases inside with rfl | rfl
    · exact ⟨by decide,⟨fun ds same => (by cases same; exact ⟨5,[],rfl,by decide⟩),by decide,by decide,by decide,by decide,
        by decide,by decide⟩,fun memory inside => by cases List.mem_singleton.mp inside⟩
    · refine ⟨by decide,⟨fun ds same => (by cases same; exact ⟨4,[],rfl,by decide⟩),by decide,by decide,by decide,by decide,
        by decide,by decide⟩,fun memory inside => ?_⟩
      cases List.mem_singleton.mp inside
      decide
  last := by decide

theorem threeDigits_valid : threeDigits.Valid where
  turns t inside := by
    cases List.mem_singleton.mp inside
    exact ⟨by decide,⟨fun _ absent => (by cases absent),by decide,by decide,by decide,by decide,by decide,by decide⟩,
      fun memory inside => by cases List.mem_singleton.mp inside⟩
  last := by decide

theorem line_kept : ∀ t ∈ line.turns, t.Kept ascii := by
  intro t inside
  simp only [line,List.mem_cons,List.not_mem_nil,or_false] at inside
  rcases inside with rfl | rfl
  · exact ⟨fun memory inside => (by cases List.mem_singleton.mp inside),fun memory inside => (by cases List.mem_singleton.mp inside),
      fun v p _ _ absent => (by cases absent),fun text => (by rcases text with other | other <;> cases other)⟩
  · refine ⟨fun memory inside => ?_,fun memory inside => ?_,fun v p integer => (by cases integer),fun _ wide => (by cases wide)⟩
    · cases List.mem_singleton.mp inside
      decide
    · cases List.mem_singleton.mp inside
      decide

end Controls

end SandboxStack.Printf
