import SandboxStack.Alignment
import SandboxStack.AssemblerSections

namespace SandboxStack.Asm
open SandboxStack.Alignment LittleEndian

def AsmState.offset (s : AsmState) : Section → Int
  | .text => s.text.len
  | .data => s.data.len
  | .bss => s.bssLen

-- The section bytes are emitted to.
def AsmState.slot (s : AsmState) : Section := if s.current = .text then .text else .data

-- From one state to the next, `n` more bytes in the current section and nothing else.
structure Grew (s s' : AsmState) (n : Nat) : Prop where
  current : s'.current = s.current
  syms : s'.syms = s.syms
  counts : s'.numericCount = s.numericCount
  offset : ∀ sec, s'.offset sec = s.offset sec + if sec = s.slot then (n : Int) else 0

section
variable {s s' middle : AsmState} {n k : Nat}

theorem Grew.refl (s : AsmState) : Grew s s 0 := ⟨rfl,rfl,rfl,fun sec => by simp⟩

theorem Grew.slot (grew : Grew s s' n) : s'.slot = s.slot := by
  unfold AsmState.slot
  rw [grew.current]

theorem Grew.trans (one : Grew s middle n) (two : Grew middle s' k) : Grew s s' (n + k) := by
  refine ⟨two.current.trans one.current,two.syms.trans one.syms,two.counts.trans one.counts,fun sec => ?_⟩
  rw [two.offset,one.offset,one.slot]
  split
  · push_cast
    omega
  · omega

theorem bind_parts {x : Except AsmError α} {f : α → Except AsmError β} {b : β} (ran : (x >>= f) = .ok b) :
    ∃ a, x = .ok a ∧ f a = .ok b := by
  cases x with
  | error e => cases ran
  | ok a => exact ⟨a,rfl,ran⟩

theorem secU8_len {sec sec' : Sec} {v : U8} (ran : secU8 sec v = .ok sec') : sec'.len = sec.len + 1 := by
  unfold secU8 at ran
  split at ran
  · dsimp only at ran
    generalize (if sec.cap ≠ 0 then sec.cap * 2 else 65536) = cap at ran
    split at ran
    · cases ran
    · cases ran
      simp [Sec.len]
  · cases ran
    simp [Sec.len]

theorem emit8_grew {v : U8} (ran : emit8 s v = .ok s') : Grew s s' 1 := by
  obtain ⟨sec,emitted,made⟩ := bind_parts ran
  cases made
  have length := secU8_len emitted
  unfold AsmState.cur at length
  unfold AsmState.setCur
  cases at' : s.current with
  | text =>
    rw [at'] at length
    refine ⟨at'.symm ▸ rfl,rfl,rfl,fun sec => ?_⟩
    cases sec <;> simp [AsmState.offset,AsmState.slot,at',length]
  | data | bss =>
    rw [at'] at length
    refine ⟨at'.symm ▸ rfl,rfl,rfl,fun sec => ?_⟩
    cases sec <;> simp [AsmState.offset,AsmState.slot,at',length]

theorem emitAll_grew {bytes : List U8} (ran : emitAll s bytes = .ok s') : Grew s s' bytes.length := by
  induction bytes generalizing s with
  | nil => cases ran; exact Grew.refl _
  | cons v rest ih =>
    obtain ⟨middle,first,remaining⟩ := bind_parts ran
    have all := (emit8_grew first).trans (ih remaining)
    rwa [Nat.add_comm] at all

theorem addFixup_grew (s : AsmState) (name : String) (addend : Int) (abs64 : Bool) :
    Grew s (addFixup s name addend abs64) 0 := ⟨rfl,rfl,rfl,fun sec => by cases sec <;> simp [addFixup,AsmState.offset]⟩

def Emission.size : Emission → Nat
  | .byte _ => 1
  | .fixup _ _ => 0

theorem instruction_grew {emissions : List Emission} (ran : instruction s emissions = .ok s') :
    Grew s s' (emissions.map Emission.size).sum := by
  induction emissions generalizing s with
  | nil => cases ran; exact Grew.refl _
  | cons emission rest ih =>
    cases emission with
    | byte v =>
      obtain ⟨middle,first,remaining⟩ := bind_parts ran
      exact (emit8_grew first).trans (ih remaining)
    | fixup name addend => exact (addFixup_grew s name addend false).trans (ih ran)

theorem slot_len (s : AsmState) : s.offset s.slot = s.cur.len := by
  unfold AsmState.slot AsmState.cur
  cases s.current <;> rfl

theorem roundUp_next {a : Nat} (positive : 0 < a) (loose : ¬n % a = 0) : roundUp (n + 1) a = roundUp n a := by
  apply Nat.le_antisymm
  · apply roundUp_least positive _ dvd_roundUp
    rcases Nat.lt_or_eq_of_le (le_roundUp (n := n) positive) with below | same
    · exact below
    · exact absurd (Nat.mod_eq_zero_of_dvd (same ▸ dvd_roundUp)) loose
  · exact roundUp_least positive (Nat.le_trans (Nat.le_succ n) (le_roundUp positive)) dvd_roundUp

-- The padding loop ends at the next multiple.
theorem padTo_grew {a : Nat} (positive : 0 < a) (ran : padTo a k s = .ok s')
    (fuel : roundUp s.cur.len a ≤ s.cur.len + k) :
    ∃ n, Grew s s' n ∧ s.cur.len + n = roundUp s.cur.len a := by
  induction k generalizing s with
  | zero =>
    cases ran
    exact ⟨0,Grew.refl _,Nat.le_antisymm (le_roundUp positive) fuel⟩
  | succ k ih =>
    unfold padTo at ran
    split at ran
    · rename_i done
      cases ran
      exact ⟨0,Grew.refl _,Nat.le_antisymm (le_roundUp positive)
        (roundUp_least positive (Nat.le_refl _) (Nat.dvd_of_mod_eq_zero done))⟩
    · rename_i loose
      obtain ⟨middle,first,remaining⟩ := bind_parts ran
      have one := emit8_grew first
      have length : middle.cur.len = s.cur.len + 1 := by
        have moved := one.offset s.slot
        rw [if_pos rfl,← one.slot,slot_len,one.slot,slot_len] at moved
        omega
      obtain ⟨n,grew,reached⟩ := ih remaining (by rw [length,roundUp_next positive loose]; omega)
      refine ⟨1 + n,one.trans grew,?_⟩
      rw [length,roundUp_next positive loose] at reached
      omega

-- The bytes a line reserves where it stands. An alignment reserves none: what
-- it skips belongs to no label.
def Line.size : Line → Nat
  | .byte _ => 1
  | .zero v => v.toNat
  | .quad _ | .quadSymbol _ _ => 8
  | .instruction emissions => (emissions.map Emission.size).sum
  | _ => 0

def Line.reserves : Line → Bool
  | .byte _ | .zero _ | .quad _ | .quadSymbol _ _ | .instruction _ => true
  | _ => false

def Line.enters (sec : Section) : Line → Section
  | .text => .text
  | .data => .data
  | .bss => .bss
  | _ => sec

def labelName (s : AsmState) : Line → Option String
  | .label name => some name
  | .numericLabel n => some (numericName n (s.numericCount n + 1))
  | _ => none

-- The offset of the current section after a line, in .text and .data and in .bss.
def advanceLoaded (len : Int) : Line → Int
  | .align a => roundUp len.toNat a.toNat
  | line => len + line.size

def advanceBss (len : Int) : Line → Int
  | .align a => alignTo (int32 len) (int32 a)
  | .zero v => int64 (len + v)
  | _ => len

def advance (sec : Section) (len : Int) (line : Line) : Int :=
  if sec = .bss then advanceBss len line else advanceLoaded len line

theorem num_parts {v lo hi a : Int} (ran : num v lo hi = .ok a) : a = v ∧ lo ≤ v ∧ v ≤ hi := by
  unfold num at ran
  split at ran
  · cases ran
  · cases ran
    exact ⟨rfl,by omega,by omega⟩

-- The alignments that are accepted.
structure Accepted (a : Int) : Prop where
  positive : 1 ≤ a
  bound : a ≤ 4096
  power : a.toNat &&& (a.toNat - 1) = 0

theorem align_accepted {a : Int} (ran : assembleLine s (.align a) = .ok s') : Accepted a := by
  obtain ⟨v,checked,rest⟩ := bind_parts ran
  obtain ⟨rfl,low,high⟩ := num_parts checked
  by_cases power : v.toNat &&& (v.toNat - 1) = 0
  · exact ⟨low,high,power⟩
  · rw [if_pos power] at rest
    cases rest

-- What one accepted line does to the section offsets, to the current section
-- and to the symbols.
structure Stepped (s s' : AsmState) (line : Line) : Prop where
  offset : ∀ sec, s'.offset sec = if sec = s.current then advance s.current (s.offset sec) line else s.offset sec
  current : s'.current = line.enters s.current
  syms : (labelName s line = none ∧ s'.syms = s.syms) ∨
    ∃ name, labelName s line = some name ∧ s.syms.lookup name = none ∧ s'.syms = (name,s.here) :: s.syms

theorem Grew.stepped {line : Line} (grew : Grew s s' n) (outside : s.current ≠ .bss)
    (advances : advanceLoaded (s.offset s.current) line = s.offset s.current + n)
    (stays : line.enters s.current = s.current) (unlabelled : labelName s line = none) : Stepped s s' line := by
  have slot : s.slot = s.current := by
    unfold AsmState.slot
    cases at' : s.current with
    | text | data => rfl
    | bss => exact (outside at').elim
  refine ⟨fun sec => ?_,grew.current.trans stays.symm,.inl ⟨unlabelled,grew.syms⟩⟩
  rw [grew.offset,slot]
  by_cases here : sec = s.current
  · subst here
    rw [if_pos rfl,if_pos rfl,advance,if_neg outside,advances]
  · rw [if_neg here,if_neg here,Int.add_zero]

theorem advance_still {line : Line} {sec : Section} {len : Int} (loaded : advanceLoaded len line = len)
    (bss : advanceBss len line = len) : advance sec len line = len := by
  unfold advance
  split
  · exact bss
  · exact loaded

theorem defineSym_stepped {line : Line} {name : String} (named : labelName s line = some name)
    (advances : advance s.current (s.offset s.current) line = s.offset s.current)
    (stays : line.enters s.current = s.current) {counts : Nat → Nat}
    (ran : defineSym {s with numericCount := counts} name = .ok s') : Stepped s s' line := by
  unfold defineSym at ran
  split at ran
  · cases ran
  · rename_i absent
    cases ran
    refine ⟨fun sec => ?_,stays.symm,.inr ⟨name,named,Option.not_isSome_iff_eq_none.mp absent,rfl⟩⟩
    by_cases here : sec = s.current
    · subst here
      rw [if_pos rfl,advances]
      cases s.current <;> rfl
    · rw [if_neg here]
      cases sec <;> rfl

theorem enter_stepped {line : Line} {sec : Section} (enters : line.enters s.current = sec)
    (advances : ∀ len, advance s.current len line = len) (unlabelled : labelName s line = none) :
    Stepped s {s with current := sec} line := by
  refine ⟨fun other => ?_,enters.symm,.inl ⟨unlabelled,rfl⟩⟩
  rw [advances]
  cases other <;> simp [AsmState.offset]

theorem bss_stepped {line : Line} {len : Int} (here : s.current = .bss) (advances : advanceBss s.bssLen line = len)
    (stays : line.enters .bss = .bss) (unlabelled : labelName s line = none) :
    Stepped s {s with bssLen := len} line := by
  refine ⟨fun sec => ?_,by rw [here,stays],.inl ⟨unlabelled,rfl⟩⟩
  rw [here]
  cases sec with
  | text | data => rfl
  | bss => exact advances.symm

theorem assembleLine_stepped {line : Line} (ran : assembleLine s line = .ok s') : Stepped s s' line := by
  cases line with
  | text => cases ran; exact enter_stepped rfl (fun len => advance_still (Int.add_zero len) rfl) rfl
  | data => cases ran; exact enter_stepped rfl (fun len => advance_still (Int.add_zero len) rfl) rfl
  | bss => cases ran; exact enter_stepped rfl (fun len => advance_still (Int.add_zero len) rfl) rfl
  | label name => exact defineSym_stepped rfl (advance_still (Int.add_zero _) rfl) rfl ran
  | numericLabel n =>
    have defined : defineSym {s with numericCount := Function.update s.numericCount n (s.numericCount n + 1)}
        (numericName n (s.numericCount n + 1)) = .ok s' := by
      simpa [assembleLine] using ran
    exact defineSym_stepped rfl (advance_still (Int.add_zero _) rfl) rfl defined
  | align a =>
    have accepted := align_accepted ran
    obtain ⟨v,checked,rest⟩ := bind_parts ran
    obtain ⟨rfl,_,_⟩ := num_parts checked
    rw [if_neg (not_not.mpr accepted.power)] at rest
    by_cases here : s.current = .bss
    · rw [if_pos here] at rest
      cases rest
      exact bss_stepped here rfl rfl rfl
    · rw [if_neg here] at rest
      have positive : 0 < v.toNat := by have := accepted.positive; omega
      have bound := roundUp_bound (n := s.cur.len) (a := v.toNat)
      obtain ⟨n,grew,reached⟩ := padTo_grew positive rest (by omega)
      refine grew.stepped here ?_ rfl rfl
      have length : s.offset s.current = s.cur.len := by
        unfold AsmState.cur
        cases at' : s.current with
        | text | data => rfl
        | bss => exact (here at').elim
      simp only [advanceLoaded,length,Int.toNat_natCast]
      omega
  | byte v =>
    simp only [assembleLine] at ran
    split at ran
    · cases ran
    · rename_i outside
      obtain ⟨a,_,emitted⟩ := bind_parts ran
      exact (emit8_grew emitted).stepped outside rfl rfl rfl
  | zero v =>
    obtain ⟨a,checked,rest⟩ := bind_parts ran
    obtain ⟨rfl,low,_⟩ := num_parts checked
    by_cases here : s.current = .bss
    · rw [if_pos here] at rest
      cases rest
      exact bss_stepped here rfl rfl rfl
    · rw [if_neg here] at rest
      have grew := emitAll_grew rest
      rw [List.length_replicate] at grew
      refine grew.stepped here ?_ rfl rfl
      simp only [advanceLoaded,Line.size]
  | quad v =>
    simp only [assembleLine] at ran
    split at ran
    · cases ran
    · rename_i outside
      have grew := emitAll_grew ran
      rw [leBytes_length] at grew
      exact grew.stepped outside rfl rfl rfl
  | quadSymbol name addend =>
    simp only [assembleLine] at ran
    split at ran
    · cases ran
    · rename_i outside
      have written : ∀ addend, emit64 (addFixup s name addend true) 0 = .ok s' →
          Stepped s s' (.quadSymbol name addend) := by
        intro addend emitted
        have grew := emitAll_grew emitted
        rw [leBytes_length] at grew
        exact ((addFixup_grew s name addend true).trans grew).stepped outside rfl rfl rfl
      cases addend with
      | none =>
        have grew := written 0 ran
        exact ⟨grew.offset,grew.current,grew.syms⟩
      | some plus =>
        obtain ⟨a,_,emitted⟩ := bind_parts ran
        have grew := written a emitted
        exact ⟨grew.offset,grew.current,grew.syms⟩
  | instruction emissions =>
    simp only [assembleLine] at ran
    split at ran
    · cases ran
    · rename_i outside
      exact (instruction_grew ran).stepped outside rfl rfl rfl

-- In .bss the offset passes through int at an alignment and through long at a
-- reservation: what keeps both exact.
def Roomy (s : AsmState) (line : Line) : Prop :=
  s.current = .bss →
    match line with
    | .align a => s.bssLen + a ≤ 2147483648
    | .zero v => s.bssLen + v < 9223372036854775808
    | _ => True

theorem int32_exact {x : Int} (low : -2147483648 ≤ x) (high : x < 2147483648) : int32 x = x := by
  unfold int32
  omega

theorem int64_exact {x : Int} (low : 0 ≤ x) (high : x < 9223372036854775808) : int64 x = x := by
  unfold int64
  omega

theorem uint64_exact {x : Int} (low : 0 ≤ x) (high : x < 18446744073709551616) : uint64 x = x := by
  unfold uint64
  omega

theorem alignTo_exact {m a : Nat} (positive : 0 < a) (room : m + a ≤ 2147483648) : alignTo m a = roundUp m a := by
  have sum : int32 (int32 ((m : Int) + a) - 1) = ((m + a - 1 : Nat) : Int) := by
    unfold int32
    omega
  have bound := roundUp_bound (n := m) (a := a)
  have quotient : ((m + a - 1 : Nat) : Int).tdiv a * a = (roundUp m a : Int) := by
    rw [Int.tdiv_eq_ediv_of_nonneg (Int.natCast_nonneg _)]
    unfold roundUp
    push_cast
    rfl
  unfold alignTo
  rw [sum,quotient]
  exact int32_exact (by omega) (by omega)

theorem alignTo_bound (n a : Int) : alignTo n a < 2147483648 := by
  unfold alignTo int32
  omega

-- The sum n + align - 1 has become negative, and the quotient with it.
theorem alignTo_wrapped {m a : Nat} (positive : 0 < a) (small : a ≤ 4096) (inside : m < 2147483648)
    (beyond : 2147483648 < m + a) : alignTo m a ≤ 0 := by
  have sum : int32 (int32 ((m : Int) + a) - 1) = -((4294967297 - m - a : Nat) : Int) := by
    unfold int32
    omega
  have quotient : (-((4294967297 - m - a : Nat) : Int)).tdiv a * a =
      -(((4294967297 - m - a) / a * a : Nat) : Int) := by
    rw [Int.neg_tdiv,Int.tdiv_eq_ediv_of_nonneg (Int.natCast_nonneg _)]
    push_cast
    rw [Int.neg_mul]
  have bound := Nat.div_mul_le_self (4294967297 - m - a) a
  unfold alignTo
  rw [sum,quotient,int32_exact (by omega) (by omega)]
  omega

theorem align_grows {a len : Int} (accepted : Accepted a) (low : 0 ≤ len) (room : len + a ≤ 2147483648) :
    alignTo (int32 len) (int32 a) = roundUp len.toNat a.toNat := by
  have positive := accepted.positive
  have bound := accepted.bound
  obtain ⟨m,rfl⟩ := Int.eq_ofNat_of_zero_le low
  obtain ⟨b,rfl⟩ := Int.eq_ofNat_of_zero_le (a := a) (by omega)
  rw [int32_exact (by omega) (by omega),int32_exact (by omega) (by omega)]
  exact alignTo_exact (by omega) (by omega)

theorem align_recedes {a len : Int} (accepted : Accepted a) (low : 0 ≤ len) (beyond : 2147483648 < len + a) :
    alignTo (int32 len) (int32 a) < len := by
  have positive := accepted.positive
  have bound := accepted.bound
  obtain ⟨m,rfl⟩ := Int.eq_ofNat_of_zero_le low
  obtain ⟨b,rfl⟩ := Int.eq_ofNat_of_zero_le (a := a) (by omega)
  by_cases inside : m < 2147483648
  · rw [int32_exact (by omega) (by omega),int32_exact (by omega) (by omega)]
    have wrapped := alignTo_wrapped (m := m) (a := b) (by omega) (by omega) inside (by omega)
    omega
  · have below := alignTo_bound (int32 m) (int32 b)
    omega

theorem zero_accepted {v : Int} (ran : assembleLine s (.zero v) = .ok s') : 0 ≤ v ∧ v ≤ 2147483648 := by
  obtain ⟨a,checked,_⟩ := bind_parts ran
  obtain ⟨rfl,low,high⟩ := num_parts checked
  exact ⟨low,high⟩

-- No line moves an offset back, except where .bss leaves the range of int or long.
theorem step_grows {line : Line} (ran : assembleLine s line = .ok s') (low : 0 ≤ s.bssLen) (roomy : Roomy s line)
    (sec : Section) : s.offset sec ≤ s'.offset sec := by
  have stepped := assembleLine_stepped ran
  rw [stepped.offset]
  split
  · rename_i here
    subst here
    unfold advance
    split
    · rename_i bss
      have room := roomy bss
      have len : s.offset s.current = s.bssLen := by rw [bss]; rfl
      rw [len]
      cases line with
      | align a =>
        have accepted := align_accepted ran
        have positive := accepted.positive
        have up := le_roundUp (n := s.bssLen.toNat) (a := a.toNat) (by omega)
        have grown := align_grows accepted low room
        simp only [advanceBss]
        omega
      | zero v =>
        have accepted := zero_accepted ran
        simp only [advanceBss]
        rw [int64_exact (by omega) room]
        omega
      | _ => exact Int.le_refl _
    · rename_i loaded
      have low : 0 ≤ s.offset s.current := by
        cases at' : s.current with
        | text | data => exact Int.natCast_nonneg _
        | bss => exact (loaded at').elim
      cases line with
      | align a =>
        have accepted := align_accepted ran
        have positive := accepted.positive
        have up := le_roundUp (n := (s.offset s.current).toNat) (a := a.toNat) (by omega)
        simp only [advanceLoaded]
        omega
      | _ => exact Int.le_add_of_nonneg_right (Int.natCast_nonneg _)
  · exact Int.le_refl _

theorem step_recedes {line : Line} (ran : assembleLine s line = .ok s') (low : 0 ≤ s.bssLen)
    (high : s.bssLen < 9223372036854775808) (tight : ¬Roomy s line) : s'.bssLen < s.bssLen := by
  have stepped := (assembleLine_stepped ran).offset .bss
  unfold Roomy at tight
  obtain ⟨bss,full⟩ := Classical.not_imp.mp tight
  rw [if_pos bss.symm,bss] at stepped
  have next : s'.bssLen = advanceBss s.bssLen line := stepped
  rw [next]
  cases line with
  | align a => exact align_recedes (align_accepted ran) low (by simpa using full)
  | zero v =>
    have accepted := zero_accepted ran
    simp only [advanceBss,int64]
    simp only at full
    omega
  | _ => exact (full trivial).elim

-- Whatever happens, the offset of .bss is a long.
theorem step_bounded {line : Line} (ran : assembleLine s line = .ok s') (high : s.bssLen < 9223372036854775808) :
    s'.bssLen < 9223372036854775808 := by
  have stepped := (assembleLine_stepped ran).offset .bss
  have next : s'.bssLen = if .bss = s.current then advance s.current s.bssLen line else s.bssLen := stepped
  rw [next]
  split
  · rename_i bss
    rw [← bss]
    cases line with
    | align a =>
      have below := alignTo_bound (int32 s.bssLen) (int32 a)
      simp only [advance,advanceBss,if_pos]
      omega
    | zero v =>
      simp only [advance,advanceBss,if_pos,int64]
      omega
    | _ => exact high
  · exact high

end

-- The bytes of the lines directly after a label that reserve any.
def reserved : List Line → Nat
  | [] => 0
  | line :: rest => if line.reserves then line.size + reserved rest else 0

def address (s : AsmState) (name : String) : Option Int := (s.syms.lookup name).map (layout s).symAddr

-- What the layout owes an accepted input: `s` is the state at its end.
structure LaidOut (lines : List Line) (s : AsmState) : Prop where
  aligned : ∀ before a line rest at' name, lines = before ++ .align a :: line :: rest →
    assembleLines initial (before ++ [.align a]) = .ok at' → labelName at' line = some name →
    ∃ addr, address s name = some addr ∧ a ∣ addr
  disjoint : ∀ before line between line' rest at' at'' name name', lines = before ++ line :: (between ++ line' :: rest) →
    assembleLines initial before = .ok at' → assembleLines initial (before ++ line :: between) = .ok at'' →
    labelName at' line = some name → labelName at'' line' = some name' →
    ∃ addr addr', address s name = some addr ∧ address s name' = some addr' ∧
      ∀ k < reserved (between ++ line' :: rest), ∀ k' < reserved rest, addr + (k : Int) ≠ addr' + (k' : Int)
  grows : ∀ before line rest at' at'', lines = before ++ line :: rest → assembleLines initial before = .ok at' →
    assembleLine at' line = .ok at'' → ∀ sec, at'.offset sec ≤ at''.offset sec
  covered : ∀ before rest at', lines = before ++ rest → assembleLines initial before = .ok at' →
    (layout s).dataAddr ≤ (layout s).bssAddr ∧
      (layout s).bssAddr + at'.bssLen ≤ (layout s).dataAddr + (layout s).dataMemSize

-- .text and .data together end within the range of int.
def SmallImage (s : AsmState) : Prop := 0x400000 + roundUp (4096 + s.text.len) 4096 + s.data.len + 15 < 2147483648

structure Kept (lines : List Line) (s : AsmState) : Prop where
  roomy : ∀ before line rest at', lines = before ++ line :: rest → assembleLines initial before = .ok at' →
    Roomy at' line
  divides : ∀ before a line rest at' name, lines = before ++ .align a :: line :: rest →
    assembleLines initial (before ++ [.align a]) = .ok at' → labelName at' line = some name → at'.current = .bss →
    a ∣ (roundUp s.data.len 16 : Int)

section
variable {lines before rest : List Line} {line : Line} {s s' middle : AsmState} {name : String} {sym : Sym}

theorem assembleLines_append : assembleLines s (before ++ rest) =
    (do let middle ← assembleLines s before; assembleLines middle rest) := by
  induction before generalizing s with
  | nil => rfl
  | cons line remaining ih =>
    simp only [List.cons_append,assembleLines]
    cases assembleLine s line with
    | error e => rfl
    | ok next => exact ih

theorem append_parts (ran : assembleLines s (before ++ rest) = .ok s') :
    ∃ middle, assembleLines s before = .ok middle ∧ assembleLines middle rest = .ok s' := by
  rw [assembleLines_append] at ran
  exact bind_parts ran

theorem append_ran (one : assembleLines s before = .ok middle) :
    assembleLines s (before ++ rest) = assembleLines middle rest := by
  rw [assembleLines_append,one]
  rfl

theorem single_ran : assembleLines s [line] = assembleLine s line := by
  unfold assembleLines
  cases assembleLine s line <;> rfl

theorem here_offset (s : AsmState) : s.here = ⟨s.current,s.offset s.current⟩ := by
  unfold AsmState.here AsmState.cur
  cases at' : s.current <;> simp [AsmState.offset]

theorem lookup_kept (ran : assembleLines s lines = .ok s') (found : s.syms.lookup name = some sym) :
    s'.syms.lookup name = some sym := by
  induction lines generalizing s with
  | nil => cases ran; exact found
  | cons line rest ih =>
    obtain ⟨middle,first,remaining⟩ := bind_parts ran
    apply ih remaining
    rcases (assembleLine_stepped first).syms with ⟨_,same⟩ | ⟨other,_,absent,added⟩
    · rw [same]
      exact found
    · have different : name ≠ other := by
        rintro rfl
        rw [absent] at found
        cases found
      rw [added,List.lookup_cons,beq_false_of_ne different]
      exact found

-- A label's symbol is where the assembler stood, to the end.
theorem label_address (ran : assembleLines initial (before ++ line :: rest) = .ok s')
    (at' : assembleLines initial before = .ok s) (named : labelName s line = some name) :
    address s' name = some ((layout s').symAddr ⟨s.current,s.offset s.current⟩) := by
  rw [append_ran at'] at ran
  obtain ⟨next,first,remaining⟩ := bind_parts ran
  have found : next.syms.lookup name = some s.here := by
    rcases (assembleLine_stepped first).syms with ⟨unlabelled,_⟩ | ⟨other,named',_,added⟩
    · rw [named] at unlabelled
      cases unlabelled
    · rw [named] at named'
      cases named'
      rw [added]
      simp
  unfold address
  rw [lookup_kept remaining found,here_offset]
  rfl

-- Along roomy lines every offset only grows.
theorem prefix_grows (roomy : ∀ before line rest at', lines = before ++ line :: rest →
      assembleLines initial before = .ok at' → Roomy at' line) {between : List Line}
    (split : lines = before ++ between ++ rest) (at' : assembleLines initial before = .ok s) (low : 0 ≤ s.bssLen)
    (ran : assembleLines s between = .ok s') (sec : Section) : s.offset sec ≤ s'.offset sec := by
  induction between generalizing before s with
  | nil => cases ran; exact Int.le_refl _
  | cons line between ih =>
    obtain ⟨next,first,remaining⟩ := bind_parts ran
    have grown := step_grows first low (roomy before line (between ++ rest) s (by simpa using split) at')
    have bss : s.bssLen ≤ next.bssLen := grown .bss
    have reached : assembleLines initial (before ++ [line]) = .ok next := by
      rw [append_ran at',single_ran]
      exact first
    exact Int.le_trans (grown sec) (ih (by simpa using split) reached (Int.le_trans low bss) remaining)

theorem prefix_low (grows : ∀ before line rest at' at'', lines = before ++ line :: rest →
      assembleLines initial before = .ok at' → 0 ≤ at'.bssLen → assembleLine at' line = .ok at'' →
      at'.bssLen ≤ at''.bssLen) (split : lines = before ++ rest)
    (at' : assembleLines initial before = .ok s) : 0 ≤ s.bssLen := by
  induction before using List.reverseRecOn generalizing rest s with
  | nil => cases at'; exact Int.le_refl _
  | append_singleton before line ih =>
    obtain ⟨previous,earlier,last⟩ := append_parts at'
    rw [single_ran] at last
    rw [List.append_assoc] at split
    have low := ih split earlier
    exact Int.le_trans low (grows before line _ previous s split earlier low last)

theorem prefix_bounded (at' : assembleLines initial before = .ok s) : s.bssLen < 9223372036854775808 := by
  induction before using List.reverseRecOn generalizing s with
  | nil => cases at'; decide
  | append_singleton before line ih =>
    obtain ⟨previous,earlier,last⟩ := append_parts at'
    rw [single_ran] at last
    exact step_bounded last (ih earlier)


-- The section addresses of a small image, as the numbers they are meant to be.
structure Placed (s : AsmState) (d b : Nat) : Prop where
  text : (layout s).textAddr = 0x401000
  data : (layout s).dataAddr = d
  bss : (layout s).bssAddr = b
  page : 4096 ∣ d
  afterText : 0x401000 + s.text.len ≤ d
  rounded : b = d + roundUp s.data.len 16
  afterData : d + s.data.len ≤ b
  small : b < 2147483648

-- A section address that is rounded up through int.
theorem rounded_address {m a : Nat} (positive : 0 < a) (room : m + a ≤ 2147483648) :
    uint64 (alignTo (int32 (uint64 (m : Int))) (a : Int)) = (roundUp m a : Int) := by
  have bound := roundUp_bound (n := m) (a := a)
  rw [uint64_exact (x := (m : Int)) (by omega) (by omega),int32_exact (by omega) (by omega),alignTo_exact positive room,
    uint64_exact (by omega) (by omega)]

theorem page_natural : page = ((4096 : Nat) : Int) := by
  unfold page
  omega

theorem base_natural : base = ((4194304 : Nat) : Int) := by
  unfold base
  omega

theorem data_based {r : Nat} (room : r < 2147483648) :
    uint64 (base + (r : Int)) = ((4194304 + r : Nat) : Int) := by
  rw [base_natural,← Int.natCast_add]
  exact uint64_exact (by omega) (by omega)

theorem text_rounded {n : Nat} (room : 4096 + n + 4096 ≤ 2147483648) :
    uint64 (alignTo (int32 (uint64 (page + (n : Int)))) page) = (roundUp (4096 + n) 4096 : Int) := by
  rw [page_natural,← Int.natCast_add]
  exact rounded_address (Nat.zero_lt_succ _) room

theorem bss_rounded {d n : Nat} (pages : 4096 ∣ d) (room : d + n + 16 ≤ 2147483648) :
    uint64 (alignTo (int32 (uint64 ((d : Int) + (n : Int)))) ((16 : Nat) : Int)) = ((d + roundUp n 16 : Nat) : Int) := by
  have sixteen : 16 ∣ d := Nat.dvd_trans ⟨256,rfl⟩ pages
  rw [← roundUp_shift (Nat.zero_lt_succ _) sixteen,← Int.natCast_add]
  exact rounded_address (Nat.zero_lt_succ _) room

theorem layout_data (small : SmallImage s) :
    (layout s).dataAddr = ((4194304 + roundUp (4096 + s.text.len) 4096 : Nat) : Int) := by
  unfold SmallImage at small
  have up : 4096 + s.text.len ≤ roundUp (4096 + s.text.len) 4096 := le_roundUp (Nat.zero_lt_succ _)
  have bound := roundUp_bound (n := 4096 + s.text.len) (a := 4096)
  have unfolded : (layout s).dataAddr =
      uint64 (base + uint64 (alignTo (int32 (uint64 (page + (s.text.len : Int)))) page)) := rfl
  rw [unfolded,text_rounded (by omega),data_based (by omega)]

theorem layout_placed (small : SmallImage s) : ∃ d b, Placed s d b := by
  have dataAt := layout_data small
  unfold SmallImage at small
  have up : 4096 + s.text.len ≤ roundUp (4096 + s.text.len) 4096 := le_roundUp (Nat.zero_lt_succ _)
  have pages : 4096 ∣ 4194304 + roundUp (4096 + s.text.len) 4096 := (Nat.dvd_add_right ⟨1024,rfl⟩).mpr dvd_roundUp
  have beyond : s.data.len ≤ roundUp s.data.len 16 := le_roundUp (Nat.zero_lt_succ _)
  have bound := roundUp_bound (n := s.data.len) (a := 16)
  have bssAt : (layout s).bssAddr =
      uint64 (alignTo (int32 (uint64 ((layout s).dataAddr + (s.data.len : Int)))) ((16 : Nat) : Int)) := rfl
  rw [dataAt,bss_rounded pages (by omega)] at bssAt
  exact ⟨_,_,rfl,dataAt,bssAt,pages,by omega,rfl,by omega,by omega⟩

theorem reserve_bss (ran : assembleLine s line = .ok s') (bss : s.current = .bss) (reserves : line.reserves = true) :
    ∃ v, line = .zero v := by
  cases line with
  | zero v => exact ⟨v,rfl⟩
  | byte v => simp [assembleLine,bss] at ran
  | quad v => simp [assembleLine,bss] at ran
  | quadSymbol name addend => simp [assembleLine,bss] at ran
  | instruction emissions => simp [assembleLine,bss] at ran
  | _ => cases reserves

theorem step_reserves (ran : assembleLine s line = .ok s') (low : 0 ≤ s.bssLen) (roomy : Roomy s line)
    (reserves : line.reserves = true) :
    s'.offset s.current = s.offset s.current + line.size ∧ s'.current = s.current := by
  have stepped := assembleLine_stepped ran
  have stays : line.enters s.current = s.current := by
    cases line with
    | text | data | bss => cases reserves
    | _ => rfl
  refine ⟨?_,stepped.current.trans stays⟩
  rw [stepped.offset,if_pos rfl]
  by_cases bss : s.current = .bss
  · obtain ⟨v,rfl⟩ := reserve_bss ran bss reserves
    have accepted := zero_accepted ran
    have room : s.bssLen + v < 9223372036854775808 := roomy bss
    rw [bss]
    show int64 (s.bssLen + v) = s.bssLen + (v.toNat : Int)
    rw [int64_exact (by omega) room]
    omega
  · rw [advance,if_neg bss]
    cases line with
    | align a => cases reserves
    | _ => rfl

-- What is reserved directly after a label stays in its section.
theorem reserved_fits (roomy : ∀ before line rest at', lines = before ++ line :: rest →
      assembleLines initial before = .ok at' → Roomy at' line) {between : List Line}
    (split : lines = before ++ (between ++ rest)) (at' : assembleLines initial before = .ok s) (low : 0 ≤ s.bssLen)
    (ran : assembleLines s between = .ok s') :
    s.offset s.current + reserved between ≤ s'.offset s.current := by
  induction between generalizing before s with
  | nil => cases ran; exact Int.le_of_eq (Int.add_zero _)
  | cons line between ih =>
    obtain ⟨next,first,remaining⟩ := bind_parts ran
    have room := roomy before line (between ++ rest) s split at'
    have reached : assembleLines initial (before ++ [line]) = .ok next := by
      rw [append_ran at',single_ran]
      exact first
    have split' : lines = (before ++ [line]) ++ (between ++ rest) := by rw [split]; simp
    have low' : 0 ≤ next.bssLen := Int.le_trans low (step_grows first low room .bss)
    unfold reserved
    split
    · rename_i reserves
      obtain ⟨moved,stays⟩ := step_reserves first low room reserves
      have later := ih split' reached low' remaining
      rw [stays,moved] at later
      push_cast
      omega
    · have one := step_grows first low room s.current
      have split'' : lines = (before ++ [line]) ++ between ++ rest := by rw [split]; simp
      have later : next.offset s.current ≤ s'.offset s.current :=
        prefix_grows roomy split'' reached low' remaining s.current
      push_cast
      omega

theorem reserved_append (label : line.reserves = false) (between : List Line) :
    reserved (between ++ line :: rest) = reserved between := by
  induction between with
  | nil => simp [reserved,label]
  | cons head between ih => simp only [List.cons_append,reserved,ih]

theorem label_quiet (named : labelName s line = some name) : line.reserves = false ∧ line.enters s.current = s.current ∧
    ∀ sec len, advance sec len line = len := by
  cases line with
  | label _ => exact ⟨rfl,rfl,fun sec len => advance_still (Int.add_zero _) rfl⟩
  | numericLabel _ => exact ⟨rfl,rfl,fun sec len => advance_still (Int.add_zero _) rfl⟩
  | _ => cases named

def start (d b : Nat) : Section → Int
  | .text => 0x401000
  | .data => d
  | .bss => b

theorem Placed.secAddr {d b : Nat} (placed : Placed s d b) (sec : Section) : (layout s).secAddr sec = start d b sec := by
  cases sec with
  | text => rw [Layout.secAddr,placed.text,start]
  | data => rw [Layout.secAddr,placed.data,start]
  | bss => rw [Layout.secAddr,placed.bss,start]

theorem Placed.symAddr {d b : Nat} (placed : Placed s d b) (bounded : s.bssLen < 9223372036854775808) {sec : Section}
    {off : Int} (low : 0 ≤ off) (high : off ≤ s.offset sec) : (layout s).symAddr ⟨sec,off⟩ = start d b sec + off := by
  have text := placed.afterText
  have data := placed.afterData
  have small := placed.small
  unfold Layout.symAddr
  rw [placed.secAddr]
  apply uint64_exact
  · cases sec <;> simp only [start] <;> omega
  · cases sec <;> simp only [start,AsmState.offset] at high ⊢ <;> omega

theorem start_page {d b : Nat} (placed : Placed s d b) {sec : Section} (loaded : sec ≠ .bss) :
    (4096 : Int) ∣ start d b sec := by
  cases sec with
  | text => exact ⟨1025,rfl⟩
  | data => exact Int.natCast_dvd_natCast.mpr placed.page
  | bss => exact (loaded rfl).elim

-- Where a label stands: its address, and what the offset of its section is from then on.
theorem label_stands {d b : Nat} (roomy : ∀ before line rest at', lines = before ++ line :: rest →
      assembleLines initial before = .ok at' → Roomy at' line) (split : lines = before ++ line :: rest)
    (accepted : assembleLines initial lines = .ok s') (placed : Placed s' d b)
    (at' : assembleLines initial before = .ok s) (named : labelName s line = some name) :
    0 ≤ s.offset s.current ∧ s.offset s.current ≤ s'.offset s.current ∧
      address s' name = some (start d b s.current + s.offset s.current) := by
  have low : 0 ≤ s.bssLen := prefix_low (fun before line rest at' at'' split ran low first =>
    step_grows first low (roomy before line rest at' split ran) .bss) split at'
  have whole := accepted
  rw [split,append_ran at'] at whole
  have inside : s.offset s.current ≤ s'.offset s.current :=
    prefix_grows roomy (show lines = before ++ (line :: rest) ++ [] by rw [split]; simp) at' low whole s.current
  have positive : 0 ≤ s.offset s.current := by
    cases sec : s.current with
    | text | data => exact Int.natCast_nonneg _
    | bss => exact low
  refine ⟨positive,inside,?_⟩
  rw [label_address (by rw [← split]; exact accepted) at' named,
    placed.symAddr (prefix_bounded accepted) positive inside]

-- What is reserved after a label ends before the next label of its section, and
-- within its section.
theorem label_reserves (roomy : ∀ before line rest at', lines = before ++ line :: rest →
      assembleLines initial before = .ok at' → Roomy at' line) {between : List Line}
    (split : lines = before ++ line :: (between ++ rest)) (at' : assembleLines initial before = .ok s)
    (reached : assembleLines initial (before ++ line :: between) = .ok s') (named : labelName s line = some name) :
    s.offset s.current + reserved between ≤ s'.offset s.current := by
  have low : 0 ≤ s.bssLen := prefix_low (fun before line rest at' at'' split ran low first =>
    step_grows first low (roomy before line rest at' split ran) .bss) split at'
  rw [append_ran at'] at reached
  obtain ⟨next,first,remaining⟩ := bind_parts reached
  obtain ⟨_,stays,still⟩ := label_quiet named
  have stepped := assembleLine_stepped first
  have current : next.current = s.current := stepped.current.trans stays
  have offset : next.offset s.current = s.offset s.current := by
    rw [stepped.offset,if_pos rfl,still]
  have low' : 0 ≤ next.bssLen :=
    Int.le_trans low (step_grows first low (roomy before line (between ++ rest) s split at') .bss)
  have reached' : assembleLines initial (before ++ [line]) = .ok next := by
    rw [append_ran at',single_ran]
    exact first
  have fits := reserved_fits roomy (show lines = (before ++ [line]) ++ (between ++ rest) by rw [split]; simp) reached'
    low' remaining
  rwa [current,offset] at fits

theorem align_stands {a : Int} (accepted : Accepted a) (ran : assembleLine s (.align a) = .ok s') (low : 0 ≤ s.bssLen)
    (roomy : Roomy s (.align a)) : s'.current = s.current ∧ a ∣ s'.offset s'.current := by
  have stepped := assembleLine_stepped ran
  have current : s'.current = s.current := stepped.current
  have positive := accepted.positive
  refine ⟨current,?_⟩
  rw [current,stepped.offset,if_pos rfl]
  have multiple : ∀ n : Nat, a ∣ (roundUp n a.toNat : Int) := by
    intro n
    obtain ⟨m,rfl⟩ := Int.eq_ofNat_of_zero_le (a := a) (by omega)
    exact Int.natCast_dvd_natCast.mpr dvd_roundUp
  by_cases bss : s.current = .bss
  · rw [bss]
    show a ∣ alignTo (int32 s.bssLen) (int32 a)
    rw [align_grows accepted low (roomy bss)]
    exact multiple _
  · rw [advance,if_neg bss]
    exact multiple _

theorem accepted_page {a : Int} (accepted : Accepted a) : a ∣ 4096 := by
  have positive := accepted.positive
  have bound := accepted.bound
  have divides : a.toNat ∣ 2 ^ 12 := power_divides (by omega) accepted.power (by omega)
  obtain ⟨m,rfl⟩ := Int.eq_ofNat_of_zero_le (a := a) (by omega)
  exact Int.natCast_dvd_natCast.mpr divides

-- The base of .bss follows .data by a number of whole pages and its rounded size.
theorem bss_divides {a : Int} {d b : Nat} (placed : Placed s d b) (accepted : Accepted a) :
    a ∣ start d b .bss ↔ a ∣ (roundUp s.data.len 16 : Int) := by
  have page : a ∣ (d : Int) := Int.dvd_trans (accepted_page accepted) (Int.natCast_dvd_natCast.mpr placed.page)
  have base : start d b .bss = (d : Int) + (roundUp s.data.len 16 : Int) := by
    rw [start,placed.rounded]
    push_cast
    rfl
  rw [base]
  exact Int.dvd_add_right page

theorem address_divides {a : Int} {d b : Nat} (placed : Placed s d b) (accepted : Accepted a) {sec : Section} {off : Int}
    (multiple : a ∣ off) : a ∣ start d b sec + off ↔ (sec = .bss → a ∣ (roundUp s.data.len 16 : Int)) := by
  by_cases bss : sec = .bss
  · subst bss
    rw [← bss_divides placed accepted]
    constructor
    · intro whole _
      exact (Int.dvd_add_left multiple).mp whole
    · intro base
      exact Int.dvd_add (base rfl) multiple
  · have page := Int.dvd_trans (accepted_page accepted) (start_page placed bss)
    exact ⟨fun _ here => (bss here).elim,fun _ => Int.dvd_add page multiple⟩

theorem kept_low (kept : Kept lines s) (split : lines = before ++ rest)
    (at' : assembleLines initial before = .ok middle) : 0 ≤ middle.bssLen :=
  prefix_low (fun before line rest at' _ split ran low first =>
    step_grows first low (kept.roomy before line rest at' split ran) .bss) split at'

theorem kept_aligned {d b : Nat} (kept : Kept lines s) (ran : assembleLines initial lines = .ok s)
    (placed : Placed s d b) {a : Int} (split : lines = before ++ .align a :: line :: rest)
    (at' : assembleLines initial (before ++ [.align a]) = .ok middle) (named : labelName middle line = some name) :
    ∃ addr, address s name = some addr ∧ a ∣ addr := by
  obtain ⟨previous,earlier,last⟩ := append_parts at'
  rw [single_ran] at last
  have accepted := align_accepted last
  obtain ⟨_,multiple⟩ := align_stands accepted last (kept_low kept split earlier)
    (kept.roomy before (.align a) (line :: rest) previous split earlier)
  obtain ⟨_,_,stands⟩ := label_stands kept.roomy
    (show lines = (before ++ [.align a]) ++ line :: rest by rw [split]; simp) ran placed at' named
  exact ⟨_,stands,(address_divides placed accepted multiple).mpr
    (kept.divides before a line rest middle name split at' named)⟩

theorem kept_disjoint {d b : Nat} (kept : Kept lines s) (ran : assembleLines initial lines = .ok s)
    (placed : Placed s d b) {between : List Line} {line' : Line} {name' : String} {later : AsmState}
    (split : lines = before ++ line :: (between ++ line' :: rest)) (at' : assembleLines initial before = .ok middle)
    (at'' : assembleLines initial (before ++ line :: between) = .ok later) (named : labelName middle line = some name)
    (named' : labelName later line' = some name') :
    ∃ addr addr', address s name = some addr ∧ address s name' = some addr' ∧
      ∀ k < reserved (between ++ line' :: rest), ∀ k' < reserved rest, addr + (k : Int) ≠ addr' + (k' : Int) := by
  have split' : lines = (before ++ line :: between) ++ line' :: rest := by rw [split]; simp
  obtain ⟨low,inside,stands⟩ := label_stands kept.roomy split ran placed at' named
  obtain ⟨low',inside',stands'⟩ := label_stands kept.roomy split' ran placed at'' named'
  have fits := label_reserves kept.roomy split at' at'' named
  have fits' := label_reserves kept.roomy
    (show lines = (before ++ line :: between) ++ line' :: (rest ++ []) by rw [split']; simp) at''
    (by rw [← split']; exact ran) named'
  have laterInside : later.offset middle.current ≤ s.offset middle.current := by
    have whole := ran
    rw [split',append_ran at''] at whole
    exact prefix_grows kept.roomy
      (show lines = (before ++ line :: between) ++ (line' :: rest) ++ [] by rw [split']; simp) at''
      (kept_low kept split' at'') whole _
  have text := placed.afterText
  have data := placed.afterData
  rw [reserved_append (label_quiet named').1]
  refine ⟨_,_,stands,stands',fun k small k' small' same => ?_⟩
  by_cases one : middle.current = later.current
  · rw [one] at fits same
    omega
  · -- different sections: each range ends within its own
    cases first : middle.current <;> cases second : later.current <;>
      simp only [first,second,start,AsmState.offset,not_true_eq_false] at * <;> omega

theorem layout_size (s : AsmState) : (layout s).dataMemSize =
    uint64 (uint64 ((layout s).bssAddr - (layout s).dataAddr) + s.bssLen) := rfl

theorem size_exact {d b : Nat} {len : Int} (after : d ≤ b) (small : b < 2147483648) (low : 0 ≤ len)
    (high : len < 9223372036854775808) : uint64 (uint64 ((b : Int) - d) + len) = (b : Int) - d + len := by
  rw [uint64_exact (x := (b : Int) - d) (by omega) (by omega)]
  exact uint64_exact (by omega) (by omega)

theorem kept_laid {d b : Nat} (kept : Kept lines s) (ran : assembleLines initial lines = .ok s)
    (placed : Placed s d b) : LaidOut lines s := by
  refine ⟨?_,?_,?_,?_⟩
  · intro before a line rest at' name split at'' named
    exact kept_aligned kept ran placed split at'' named
  · intro before line between line' rest at' at'' name name' split one two named named'
    exact kept_disjoint kept ran placed split one two named named'
  · intro before line rest at' at'' split one first
    exact step_grows first (kept_low kept split one) (kept.roomy before line rest at' split one)
  · intro before rest at' split one
    have whole := ran
    rw [split,append_ran one] at whole
    have low := kept_low kept split one
    have grown : at'.bssLen ≤ s.bssLen :=
      prefix_grows kept.roomy (show lines = before ++ rest ++ [] by rw [split]; simp) one low whole .bss
    have after : d ≤ b := Nat.le_trans (Nat.le_add_right ..) placed.afterData
    rw [layout_size,placed.data,placed.bss,
      size_exact after placed.small (Int.le_trans low grown) (prefix_bounded ran)]
    omega

theorem laid_kept {d b : Nat} (laid : LaidOut lines s) (ran : assembleLines initial lines = .ok s)
    (placed : Placed s d b) : Kept lines s := by
  have lowAt : ∀ before rest at', lines = before ++ rest → assembleLines initial before = .ok at' → 0 ≤ at'.bssLen :=
    fun before rest at' split one => prefix_low (fun before line rest at' at'' split one _ first =>
      laid.grows before line rest at' at'' split one first .bss) split one
  have roomy : ∀ before line rest at', lines = before ++ line :: rest → assembleLines initial before = .ok at' →
      Roomy at' line := by
    intro before line rest at' split one
    apply Classical.byContradiction
    intro tight
    have whole := ran
    rw [split,append_ran one] at whole
    obtain ⟨next,first,_⟩ := bind_parts whole
    have back := step_recedes first (lowAt before _ at' split one) (prefix_bounded one) tight
    have forth : at'.bssLen ≤ next.bssLen := laid.grows before line rest at' next split one first .bss
    omega
  refine ⟨roomy,?_⟩
  intro before a line rest at' name split one named bss
  obtain ⟨previous,earlier,last⟩ := append_parts one
  rw [single_ran] at last
  have accepted := align_accepted last
  obtain ⟨_,multiple⟩ := align_stands accepted last (lowAt before _ previous split earlier)
    (roomy before (.align a) (line :: rest) previous split earlier)
  obtain ⟨_,_,stands⟩ := label_stands roomy
    (show lines = (before ++ [.align a]) ++ line :: rest by rw [split]; simp) ran placed one named
  obtain ⟨addr,found,divides⟩ := laid.aligned before a line rest at' name split one named
  rw [stands] at found
  cases found
  exact (address_divides placed accepted multiple).mp divides bss

end

theorem section_layout (lines : List Line) (s : AsmState) (accepted : assembleLines initial lines = .ok s)
    (small : SmallImage s) : LaidOut lines s ↔ Kept lines s := by
  obtain ⟨d,b,placed⟩ := layout_placed small
  exact ⟨fun laid => laid_kept laid accepted placed,fun kept => kept_laid kept accepted placed⟩

namespace Controls
def final (lines : List Line) : AsmState :=
  match assembleLines initial lines with
  | .ok s => s
  | .error _ => initial

def aligned : List Line := [.label "_start",.bss,.align 16,.label "x",.zero 4]

-- One byte of data puts .bss on a multiple of 16 that 32 does not divide.
def wideAlignment : List Line := [.label "_start",.data,.byte 1,.bss,.align 32,.label "x",.zero 1]

-- Two directives reserve 2^31 bytes; align_to takes the offset through int.
def hugeReservation : List Line := [.label "_start",.bss,.zero 2147483648,.align 1]
end Controls

theorem section_layout_aligned : LaidOut Controls.aligned (Controls.final Controls.aligned) ↔
    Kept Controls.aligned (Controls.final Controls.aligned) :=
  section_layout Controls.aligned (Controls.final Controls.aligned) rfl (by unfold SmallImage; decide)

theorem section_layout_broken :
    (assembleLines initial Controls.wideAlignment = .ok (Controls.final Controls.wideAlignment) ∧
      ¬LaidOut Controls.wideAlignment (Controls.final Controls.wideAlignment)) ∧
    (assembleLines initial Controls.hugeReservation = .ok (Controls.final Controls.hugeReservation) ∧
      ¬LaidOut Controls.hugeReservation (Controls.final Controls.hugeReservation)) := by
  refine ⟨⟨rfl,fun laid => ?_⟩,rfl,fun laid => ?_⟩
  · obtain ⟨addr,found,divides⟩ := laid.aligned [.label "_start",.data,.byte 1,.bss] 32 (.label "x") [.zero 1] _ "x" rfl rfl rfl
    have at' : address (Controls.final Controls.wideAlignment) "x" = some 0x401010 := rfl
    rw [at'] at found
    cases found
    exact absurd divides (by decide)
  · have grows := laid.grows [.label "_start",.bss,.zero 2147483648] (.align 1) [] _ _ rfl rfl rfl .bss
    exact absurd grows (by decide)

end SandboxStack.Asm
