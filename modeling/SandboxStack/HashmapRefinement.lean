import SandboxStack.Hashmap

namespace SandboxStack.Hashmap
open OpenAddressing

section
variable {V : Type}

def start (key : List U8) : Nat := (fnvHash key).toNat

-- A map with buckets `t` that binds the keys as `m` does.
structure Sound (map : HashMap V) (t : List (HashEntry V)) (m : List U8 → Option (Pointer V)) : Prop where
  buckets : map.buckets = some t
  capacity : map.capacity = t.length
  power : ∃ e, 4 ≤ e ∧ t.length = 2 ^ e
  int : t.length < 2 ^ 31
  used : map.used = t.countP taken
  load : 100 * map.used < 70 * t.length + 100
  searchable : Searchable start t
  single : Single t
  represents : Represents t m

variable {map : HashMap V} {t : List (HashEntry V)} {m : List U8 → Option (Pointer V)} {key : List U8} {val : Pointer V}

theorem position_probe {n e : Nat} (power : n = 2 ^ e) (int : n < 2 ^ 31) (i : Nat) :
    position (fnvHash key) n i = probe start n key i := by
  have divides : n ∣ 2 ^ 64 := by
    rw [power]
    apply Nat.pow_dvd_pow
    refine Nat.le_of_lt_succ ((Nat.pow_lt_pow_iff_right (Nat.lt_succ_self 1)).mp ?_)
    rw [← power]
    exact int.trans (by decide)
  unfold position probe start
  rw [BitVec.toNat_umod,BitVec.toNat_add,BitVec.toNat_ofNat,BitVec.toNat_ofNat,
    Nat.mod_eq_of_lt (int.trans (by decide)),Nat.mod_mod_of_dvd _ divides,Nat.add_mod,Nat.mod_mod_of_dvd _ divides,
    ← Nat.add_mod]

theorem Sound.positive (sound : Sound map t m) : 16 ≤ t.length := by
  obtain ⟨e,large,power⟩ := sound.power
  rw [power]
  show 2 ^ 4 ≤ 2 ^ e
  exact Nat.pow_le_pow_right (Nat.zero_lt_succ 1) large

theorem Sound.room (sound : Sound map t m) : Slot.empty ∈ t := by
  have large := sound.positive
  have load := sound.load
  have less : t.countP taken < t.length := by
    rw [← sound.used]
    omega
  by_contra full
  have all : ∀ ent ∈ t, taken ent := by
    intro ent member
    cases ent with
    | empty => exact absurd member full
    | deleted => rfl
    | full _ _ => rfl
  rw [List.countP_eq_length.mpr all] at less
  exact Nat.lt_irrefl _ less

theorem search_at {R : Type} {turn : HashEntry V → Nat → Option R} {d e : Nat} {ent : HashEntry V} {r : R}
    (buckets : map.buckets = some t) (capacity : map.capacity = t.length) (power : t.length = 2 ^ e)
    (int : t.length < 2 ^ 31) (below : d < t.length) (at_d : t[probe start t.length key d]? = some ent)
    (turned : turn ent (probe start t.length key d) = some r)
    (before : ∀ i < d, ∀ ent, t[probe start t.length key i]? = some ent → turn ent (probe start t.length key i) = none) :
    search map key turn = some r := by
  unfold search
  rw [capacity,buckets]
  apply findSome?_range below
  · rw [position_probe power int]
    simp only [Option.getD_some,at_d,Option.bind_eq_bind,Option.bind_some,turned]
  · intro i less
    rw [position_probe power int]
    simp only [Option.getD_some,Option.bind_eq_bind]
    cases found : t[probe start t.length key i]? with
    | none => rfl
    | some ent => exact before i less ent found

theorem Sound.search {R : Type} {turn : HashEntry V → Nat → Option R} {d : Nat} {ent : HashEntry V} {r : R}
    (sound : Sound map t m) (below : d < t.length) (at_d : t[probe start t.length key d]? = some ent)
    (turned : turn ent (probe start t.length key d) = some r)
    (before : ∀ i < d, ∀ ent, t[probe start t.length key i]? = some ent → turn ent (probe start t.length key i) = none) :
    search map key turn = some r := by
  obtain ⟨e,_,power⟩ := sound.power
  exact search_at sound.buckets sound.capacity power sound.int below at_d turned before

theorem Sound.inside (sound : Sound map t m) (key : List U8) (d : Nat) : probe start t.length key d < t.length :=
  probe_lt (Nat.zero_lt_of_lt sound.positive) d

-- Where the loops of get_entry and of get_or_insert_entry return.
def Ends (key : List U8) (ent : HashEntry V) : Prop := ent = .empty ∨ ∃ v, ent = .full key v
def Halts (key : List U8) (ent : HashEntry V) : Prop := ent = .deleted ∨ Ends key ent

theorem ends_own {k : List U8} {v : Pointer V} (ends : Ends key (.full k v)) : k = key := by
  rcases ends with empty | ⟨w,same⟩
  · cases empty
  · cases same
    rfl

theorem halts_own {k : List U8} {v : Pointer V} (halts : Halts key (.full k v)) : k = key := by
  rcases halts with deleted | ends
  · cases deleted
  · exact ends_own ends

theorem get_passes {ent : HashEntry V} (goes : ¬Ends key ent) (j : Nat) : getTurn key ent j = none := by
  cases ent with
  | empty => exact absurd (.inl rfl) goes
  | deleted => rfl
  | full k v =>
    apply if_neg
    rintro rfl
    exact goes (.inr ⟨v,rfl⟩)

theorem insert_passes {ent : HashEntry V} (goes : ¬Halts key ent) (j : Nat) : insertTurn key ent j = none := by
  cases ent with
  | empty => exact absurd (.inr (.inl rfl)) goes
  | deleted => exact absurd (.inl rfl) goes
  | full k v =>
    apply if_neg
    rintro rfl
    exact goes (.inr (.inr ⟨v,rfl⟩))

theorem unbound_nowhere (represents : Represents t m) (unbound : m key = none) (j : Nat) (v : Pointer V) :
    t[j]? ≠ some (Slot.full key v) := by
  intro full
  rw [(represents key v).mpr ⟨j,full⟩] at unbound
  cases unbound

theorem getEntry_bound (sound : Sound map t m) {v : Pointer V} (bound : m key = some v) :
    ∃ j, getEntry map key = some (some j) ∧ t[j]? = some (Slot.full key v) := by
  obtain ⟨j,at_j⟩ := (sound.represents key v).mp bound
  obtain ⟨d,below,⟨ent,at_d,ends⟩,first⟩ := search_first start (Ends key) (.inl rfl) sound.room key
  have same : probe start t.length key d = j := by
    refine (bound_stops (fun v => .inr ⟨v,rfl⟩) (fun _ _ => ends_own) sound.searchable sound.single at_j at_d ends
      first).resolve_right ?_
    rintro ⟨rfl,_⟩
    rcases ends with empty | ⟨_,full⟩
    · cases empty
    · cases full
  refine ⟨j,?_,at_j⟩
  unfold getEntry
  rw [sound.buckets]
  refine sound.search below (same ▸ at_j) ?_ fun i less ent found => get_passes (first i less ent found) _
  rw [same,getTurn,if_pos rfl]

theorem getEntry_unbound (sound : Sound map t m) (unbound : m key = none) : getEntry map key = some none := by
  obtain ⟨d,below,⟨ent,at_d,ends⟩,first⟩ := search_first start (Ends key) (.inl rfl) sound.room key
  unfold getEntry
  rw [sound.buckets]
  rcases ends with rfl | ⟨v,rfl⟩
  · exact sound.search below at_d rfl fun i less ent found => get_passes (first i less ent found) _
  · exact absurd at_d (unbound_nowhere sound.represents unbound _ v)

theorem get2_sound (sound : Sound map t m) : get2 map key = some (m key).join := by
  unfold get2
  cases bound : m key with
  | none =>
    rw [getEntry_unbound sound bound]
    rfl
  | some v =>
    obtain ⟨j,found,at_j⟩ := getEntry_bound sound bound
    rw [found]
    simp [entryAt,sound.buckets,at_j]

theorem entryAt_probe (sound : Sound map t m) (d : Nat) :
    entryAt map (position (fnvHash key) map.capacity d) = t[probe start t.length key d]? := by
  obtain ⟨e,_,power⟩ := sound.power
  rw [entryAt,sound.buckets,sound.capacity,position_probe power sound.int]
  rfl

-- Where get_or_insert_entry stops: nothing empty comes before, and the entry there has
-- no other key, nor has another entry the key.
theorem insert_stops (sound : Sound map t m) (clear : ¬Shadowed map key) :
    ∃ d < t.length, ∃ ent, t[probe start t.length key d]? = some ent ∧ Halts key ent ∧ Passes start t key d ∧
      (∀ i < d, ∀ ent, t[probe start t.length key i]? = some ent → ¬Halts key ent) ∧
      ∀ i w, t[i]? = some (Slot.full key w) → i = probe start t.length key d := by
  obtain ⟨d,below,⟨ent,at_d,halts⟩,first⟩ :=
    search_first start (Halts key) (.inr (.inl rfl)) sound.room key
  refine ⟨d,below,ent,at_d,halts,?_,first,?_⟩
  · intro i less empty
    exact first i less .empty empty (.inr (.inl rfl))
  · intro i w bound
    have stopped := bound_stops (fun v => .inr (.inr ⟨v,rfl⟩)) (fun _ _ => halts_own) sound.searchable sound.single bound
      at_d halts first
    rcases stopped with same | ⟨rfl,e,inside,less,at_e⟩
    · exact same.symm
    · refine absurd ⟨e,by rwa [sound.capacity],⟨w,?_⟩,d,less,?_⟩ clear
      · rw [entryAt_probe sound,at_e]
      · rw [entryAt_probe sound,at_d]

def isEmpty : HashEntry V → Bool
  | .empty => true
  | _ => false

theorem insertTurn_halts {ent : HashEntry V} (halts : Halts key ent) (j : Nat) :
    insertTurn key ent j = some (j,isEmpty ent) := by
  rcases halts with rfl | rfl | ⟨v,rfl⟩
  · rfl
  · rfl
  · exact if_pos rfl

theorem count_set {j : Nat} {ent : HashEntry V} (found : t[j]? = some ent) :
    (t.set j (.full key val)).countP taken = if isEmpty ent then t.countP taken + 1 else t.countP taken := by
  obtain ⟨inside,same⟩ := List.getElem?_eq_some_iff.mp found
  rw [List.countP_set inside,same]
  have some_taken : taken ent → 0 < t.countP taken := fun is_taken =>
    List.countP_pos_iff.mpr ⟨ent,same ▸ List.getElem_mem inside,is_taken⟩
  cases ent with
  | empty => simp [taken,isEmpty]
  | deleted | full _ _ =>
    have positive := some_taken rfl
    simp [taken,isEmpty]
    omega

-- A key placed while there is room.
theorem place_sound (sound : Sound map t m) (clear : ¬Shadowed map key) (val : Pointer V)
    (room : 100 * map.used < 70 * t.length) :
    ∃ map' j ent, place map key val = some map' ∧ t[j]? = some ent ∧ Halts key ent ∧
      Sound map' (t.set j (.full key val)) (Function.update m key (some val)) ∧
      map'.used = if isEmpty ent then map.used + 1 else map.used := by
  obtain ⟨d,below,ent,at_d,halts,passes,first,only⟩ := insert_stops sound clear
  have inside := sound.inside key d
  have found : search map key (insertTurn key) = some (probe start t.length key d,isEmpty ent) :=
    sound.search below at_d (insertTurn_halts halts _) fun i less ent found => insert_passes (first i less ent found) _
  have large := sound.positive
  have owns : ∀ k' w, t[probe start t.length key d]? = some (Slot.full k' w) → k' = key := by
    intro k' w full
    rw [at_d] at full
    cases full
    exact halts_own halts
  have placed : place map key val = some ⟨map.buckets.map (·.set (probe start t.length key d) (.full key val)),map.capacity,
      if isEmpty ent then map.used + 1 else map.used⟩ := by
    rw [place,found]
    rfl
  refine ⟨_,_,ent,placed,at_d,halts,⟨?_,?_,?_,?_,?_,?_,?_,?_,?_⟩,rfl⟩
  · simp only [sound.buckets,Option.map_some]
  · simp only [sound.capacity,List.length_set]
  · rw [List.length_set]
    exact sound.power
  · rw [List.length_set]
    exact sound.int
  · rw [count_set at_d,sound.used]
  · rw [List.length_set]
    dsimp only
    split <;> omega
  · exact put_searchable inside sound.searchable ⟨d,below,rfl,passes⟩
  · exact put_single inside sound.single only
  · exact put_represents inside sound.represents owns only

theorem fresh_sound {e : Nat} (large : 4 ≤ e) (int : 2 ^ e < 2 ^ 31) :
    Sound (V := V) ⟨some (List.replicate (2 ^ e) .empty),2 ^ e,0⟩ (List.replicate (2 ^ e) .empty) fun _ => none := by
  refine ⟨rfl,?_,?_,?_,?_,?_,empty_searchable _,empty_single _,empty_represents _⟩
  · rw [List.length_replicate]
  · exact ⟨e,large,List.length_replicate⟩
  · rwa [List.length_replicate]
  · rw [List.countP_replicate]
    rfl
  · rw [List.length_replicate]
    show 100 * 0 < _
    omega

theorem clear_of_kept (sound : Sound map t m) (kept : Slot.deleted ∉ t) : ¬Shadowed map key := by
  rintro ⟨_,_,_,i,_,deleted⟩
  rw [entryAt_probe sound] at deleted
  exact kept (List.mem_of_getElem? deleted)

theorem prepare_idle {put : HashMap V → List U8 → Pointer V → Option (HashMap V)} (sound : Sound map t m)
    (few : 100 * map.used < 2 ^ 31) (room : 100 * map.used < 70 * t.length) : prepare put map = some map := by
  have large := sound.positive
  have idle : ¬highWatermark ≤ map.used * 100 / map.capacity := by
    rw [Nat.not_le,sound.capacity,highWatermark,Nat.div_lt_iff_lt_mul (by omega)]
    omega
  unfold prepare
  rw [sound.buckets]
  simp only [intMul,if_pos (show map.used * 100 < 2 ^ 31 by omega),intDiv,Option.bind_eq_bind,Option.bind_some]
  rw [if_neg (by rw [sound.capacity]; omega),Option.bind_some,if_neg idle]

theorem growCapacity_exact (nkeys : Nat) {e : Nat} (few : 100 * nkeys < 2 ^ 31) (int : 2 ^ e < 2 ^ 31) :
    ∃ e', e ≤ e' ∧ growCapacity nkeys (2 ^ e) = some (2 ^ e') ∧ 2 * nkeys < 2 ^ e' ∧ 2 ^ e' < 2 ^ 31 := by
  have positive : 0 < 2 ^ e := Nat.two_pow_pos e
  rw [growCapacity,if_neg (by omega),intMul,if_pos (by omega)]
  dsimp only
  by_cases low : nkeys * 100 / 2 ^ e < lowWatermark
  · rw [if_pos low]
    rw [lowWatermark,Nat.div_lt_iff_lt_mul positive] at low
    exact ⟨e,Nat.le_refl e,rfl,by omega,int⟩
  · rw [if_neg low]
    rw [lowWatermark,Nat.div_lt_iff_lt_mul positive] at low
    have twice : 2 ^ e * 2 = 2 ^ (e + 1) := (Nat.pow_succ ..).symm
    rw [if_pos (by omega),twice]
    obtain ⟨e',more,grown,least,int'⟩ := growCapacity_exact nkeys (e := e + 1) few (by omega)
    exact ⟨e',by omega,grown,least,int'⟩
  termination_by 2 ^ 31 - 2 ^ e

-- The keys of `done` are in the new table, those of `rest` are not yet.
theorem refill (depth : Nat) (done rest : List (HashEntry V)) (sound : Sound map t m) (kept : Slot.deleted ∉ t)
    (count : map.used = done.countP keyed) (represents : Represents done m) (single : Single (done ++ rest))
    (room : 2 * (done ++ rest).countP keyed < t.length) (few : 100 * (done ++ rest).countP keyed < 2 ^ 31) :
    ∃ map' t' m', rest.foldlM (copyEntry (put2 (depth + 1))) map = some map' ∧ Sound map' t' m' ∧
      Slot.deleted ∉ t' ∧ map'.used = (done ++ rest).countP keyed ∧ Represents (done ++ rest) m' ∧ t'.length = t.length := by
  induction rest generalizing done map t m with
  | nil => exact ⟨map,t,m,rfl,sound,kept,by rw [List.append_nil,count],by rwa [List.append_nil],rfl⟩
  | cons ent rest ih =>
    rw [List.append_cons] at single room few ⊢
    rw [List.foldlM_cons]
    cases ent with
    | empty | deleted =>
      exact ih _ sound kept (by rw [List.countP_append,count]; rfl) (represents_other represents nofun) single room few
    | full k v =>
      have unbound : m k = none := by
        refine Option.eq_none_iff_forall_ne_some.mpr fun w bound => ?_
        obtain ⟨j,full⟩ := (represents k w).mp bound
        have inside := (List.getElem?_eq_some_iff.mp full).1
        have same := single j done.length k w v
          (by rw [List.append_assoc,List.getElem?_append_left inside,full]) (by simp)
        omega
      have counted : (done ++ [Slot.full k v] ++ rest).countP keyed = map.used + 1 + rest.countP keyed := by
        rw [List.countP_append,List.countP_append,count]
        rfl
      rw [counted] at room few
      obtain ⟨map',j,ent,placed,found,halts,sound',used'⟩ :=
        place_sound sound (clear_of_kept sound kept) v (by omega)
      have empty : ent = .empty := by
        rcases halts with rfl | rfl | ⟨w,rfl⟩
        · exact absurd (List.mem_of_getElem? found) kept
        · rfl
        · exact absurd found (unbound_nowhere sound.represents unbound j w)
      subst empty
      have put : put2 (depth + 1) map k v = some map' := by
        rw [put2,prepare_idle sound (by omega) (by omega)]
        exact placed
      have kept' : Slot.deleted ∉ t.set j (.full k v) := by
        intro member
        rcases List.mem_or_eq_of_mem_set member with member | same
        · exact kept member
        · cases same
      simp only [copyEntry,put,Option.bind_eq_bind,Option.bind_some]
      obtain ⟨map3,t3,m3,ran,rest_sound⟩ := ih _ sound' kept' (by rw [used',List.countP_append,count]; rfl)
        (represents_full represents unbound) single (by rw [counted,List.length_set]; omega) (by rw [counted]; omega)
      rw [List.length_set] at rest_sound
      exact ⟨map3,t3,m3,ran,rest_sound⟩

theorem keyed_taken (t : List (HashEntry V)) : t.countP keyed ≤ t.countP taken := by
  apply List.countP_mono_left
  intro ent _ is_keyed
  cases ent with
  | full _ _ => rfl
  | _ => cases is_keyed

theorem rehash_sound (depth : Nat) (sound : Sound map t m) (few : 100 * map.used < 2 ^ 31) :
    ∃ map' t', rehash (put2 (depth + 1)) map = some map' ∧ Sound map' t' m ∧ Slot.deleted ∉ t' ∧
      map'.used ≤ map.used ∧ 2 * map'.used < t'.length := by
  obtain ⟨e,large,power⟩ := sound.power
  have int := sound.int
  rw [power] at int
  have fewer := keyed_taken t
  rw [← sound.used] at fewer
  obtain ⟨e',more,grown,least,int'⟩ := growCapacity_exact (t.countP keyed) (by omega) int
  obtain ⟨map',t',m',ran,sound',kept,used',represents',length'⟩ := refill depth [] t
    (fresh_sound (large.trans more) int') (by simp) rfl (empty_represents 0) sound.single
    (by rw [List.length_replicate]; exact least) (by simp only [List.nil_append]; omega)
  rw [List.nil_append] at used' represents'
  cases represents_unique represents' sound.represents
  refine ⟨map',t',?_,sound',kept,by omega,by rw [length',List.length_replicate]; omega⟩
  unfold rehash
  rw [sound.buckets,sound.capacity,Option.getD_some,List.take_length]
  simp only [power,grown,Option.bind_eq_bind,Option.bind_some,ran,used',if_true]

end

end SandboxStack.Hashmap
