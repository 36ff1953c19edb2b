import SandboxStack.HashmapRefinement

namespace SandboxStack.Hashmap
open OpenAddressing

section
variable {V : Type} {map : HashMap V} {t : List (HashEntry V)} {m : List U8 → Option (Pointer V)} {key : List U8}

-- A map between two calls.
def Intact (map : HashMap V) (m : List U8 → Option (Pointer V)) : Prop :=
  map = zeroed ∧ m = (fun _ => none) ∨ ∃ t, Sound map t m

-- The keys are stored in entries that were never deleted.
def Undeleted (map : HashMap V) : Prop := Slot.deleted ∉ map.buckets.getD []

theorem zeroed_intact : Intact (V := V) zeroed fun _ => none := .inl ⟨rfl,rfl⟩

theorem zeroed_clear : ¬Shadowed (V := V) zeroed key := by
  rintro ⟨d,below,_⟩
  exact Nat.not_lt_zero d below

theorem undeleted_clear (intact : Intact map m) (undeleted : Undeleted map) : ¬Shadowed map key := by
  rcases intact with ⟨rfl,_⟩ | ⟨t,sound⟩
  · exact zeroed_clear
  · refine clear_of_kept sound ?_
    rwa [Undeleted,sound.buckets] at undeleted

theorem undeleted_set {j : Nat} {val : Pointer V} (kept : Slot.deleted ∉ t) : Slot.deleted ∉ t.set j (.full key val) := by
  intro member
  rcases List.mem_or_eq_of_mem_set member with member | same
  · exact kept member
  · cases same

theorem put2_placed {depth : Nat} {prepared : HashMap V} (val : Pointer V)
    (ready : prepare (put2 depth) map = some prepared) (sound : Sound prepared t m) (clear : ¬Shadowed prepared key)
    (room : 100 * prepared.used < 70 * t.length) :
    ∃ map', put2 (depth + 1) map key val = some map' ∧ Intact map' (Function.update m key (some val)) ∧
      map'.used ≤ prepared.used + 1 ∧ (Slot.deleted ∉ t → Undeleted map') := by
  obtain ⟨map',j,ent,placed,_,_,sound',used'⟩ := place_sound sound clear val room
  refine ⟨map',?_,.inr ⟨_,sound'⟩,?_,fun kept => ?_⟩
  · rw [put2,ready]
    exact placed
  · rw [used']
    split <;> omega
  · rw [Undeleted,sound'.buckets]
    exact undeleted_set kept

theorem put2_intact (depth : Nat) (intact : Intact map m) (clear : ¬Shadowed map key) (val : Pointer V)
    (few : 100 * map.used < 2 ^ 31) :
    ∃ map', put2 (depth + 2) map key val = some map' ∧ Intact map' (Function.update m key (some val)) ∧
      map'.used ≤ map.used + 1 ∧ (Undeleted map → Undeleted map') := by
  rcases intact with ⟨rfl,rfl⟩ | ⟨t,sound⟩
  · have blank := fresh_sound (V := V) (Nat.le_refl 4) (by decide)
    have kept : (Slot.deleted : HashEntry V) ∉ List.replicate (2 ^ 4) .empty := by
      rw [List.mem_replicate]
      exact fun ⟨_,same⟩ => nomatch same
    have ready : prepare (put2 (depth + 1)) (zeroed : HashMap V) = some ⟨some (List.replicate (2 ^ 4) .empty),2 ^ 4,0⟩ := rfl
    obtain ⟨map',put,intact',used',undeleted⟩ := put2_placed val ready blank (clear_of_kept blank kept)
      (by rw [List.length_replicate]; exact (by decide : 100 * 0 < 70 * 2 ^ 4))
    exact ⟨map',put,intact',used',fun _ => undeleted kept⟩
  · by_cases room : 100 * map.used < 70 * t.length
    · obtain ⟨map',put,intact',used',kept⟩ := put2_placed val (prepare_idle sound few room) sound clear room
      refine ⟨map',put,intact',used',fun undeleted => kept ?_⟩
      rwa [Undeleted,sound.buckets] at undeleted
    · obtain ⟨map2,t2,rehashed,sound2,kept2,fewer,half⟩ := rehash_sound depth sound few
      have large := sound.positive
      have ready : prepare (put2 (depth + 1)) map = some map2 := by
        have full : highWatermark ≤ map.used * 100 / map.capacity := by
          rw [sound.capacity,highWatermark,Nat.le_div_iff_mul_le (by omega)]
          omega
        unfold prepare
        rw [sound.buckets]
        simp only [intMul,if_pos (show map.used * 100 < 2 ^ 31 by omega),intDiv,Option.bind_eq_bind,Option.bind_some]
        rw [if_neg (by rw [sound.capacity]; omega),Option.bind_some,if_pos full,rehashed]
      obtain ⟨map',put,intact',used',kept⟩ := put2_placed val ready sound2 (clear_of_kept sound2 kept2) (by omega)
      exact ⟨map',put,intact',by omega,fun _ => kept kept2⟩

theorem get2_intact (intact : Intact map m) (key : List U8) : get2 map key = some (m key).join := by
  rcases intact with ⟨rfl,rfl⟩ | ⟨t,sound⟩
  · rfl
  · exact get2_sound sound

theorem delete_sound {j : Nat} {v : Pointer V} (sound : Sound map t m) (bound : t[j]? = some (Slot.full key v)) :
    Sound {map with buckets := some (t.set j .deleted)} (t.set j .deleted) (Function.update m key none) := by
  obtain ⟨inside,same⟩ := List.getElem?_eq_some_iff.mp bound
  refine ⟨rfl,?_,?_,?_,?_,?_,delete_searchable inside sound.searchable,delete_single inside sound.single,
    delete_represents inside sound.represents sound.single bound⟩
  · rw [List.length_set,sound.capacity]
  · rw [List.length_set]
    exact sound.power
  · rw [List.length_set]
    exact sound.int
  · have positive : 0 < t.countP taken := List.countP_pos_iff.mpr ⟨_,List.getElem_mem inside,by rw [same]; rfl⟩
    rw [List.countP_set inside,same,sound.used]
    simp only [taken,if_true]
    omega
  · rw [List.length_set]
    exact sound.load

theorem delete2_intact (intact : Intact map m) (key : List U8) :
    ∃ map', delete2 map key = some map' ∧ Intact map' (Function.update m key none) ∧ map'.used = map.used := by
  rcases intact with ⟨rfl,rfl⟩ | ⟨t,sound⟩
  · exact ⟨zeroed,rfl,.inl ⟨rfl,Function.update_eq_self key _⟩,rfl⟩
  · unfold delete2
    cases bound : m key with
    | none =>
      rw [getEntry_unbound sound bound]
      refine ⟨map,rfl,.inr ⟨t,?_⟩,rfl⟩
      rwa [← bound,Function.update_eq_self]
    | some v =>
      obtain ⟨j,found,at_j⟩ := getEntry_bound sound bound
      rw [found,sound.buckets]
      exact ⟨_,rfl,.inr ⟨_,delete_sound sound at_j⟩,rfl⟩

-- A finite map, NULL where nothing is bound.
def Op.update (bindings : List U8 → Pointer V) : Op V → List U8 → Pointer V
  | .get _ => bindings
  | .put key val => Function.update bindings key val
  | .delete key => Function.update bindings key none

def Op.answer (bindings : List U8 → Pointer V) : Op V → List (Pointer V)
  | .get key => [bindings key]
  | _ => []

def answers (bindings : List U8 → Pointer V) : List (Op V) → List (Pointer V)
  | [] => []
  | op :: ops => op.answer bindings ++ answers (op.update bindings) ops

def Op.Clear (map : HashMap V) : Op V → Prop
  | .put key _ => ¬Shadowed map key
  | _ => True

-- No key is put again while the way to its entry has a deleted one.
def Unshadowed (depth : Nat) (map : HashMap V) : List (Op V) → Prop
  | [] => True
  | op :: ops => op.Clear map ∧ ∀ after, step depth map op = some after → Unshadowed depth after.1 ops

instance (map : HashMap V) : (op : Op V) → Decidable (op.Clear map)
  | .put key _ => inferInstanceAs (Decidable ¬Shadowed map key)
  | .get _ | .delete _ => isTrue trivial

instance decideUnshadowed (depth : Nat) : (map : HashMap V) → (ops : List (Op V)) → Decidable (Unshadowed depth map ops)
  | _,[] => isTrue trivial
  | map,op :: ops =>
    match stepped : step depth map op with
    | none => decidable_of_iff (op.Clear map) (by simp [Unshadowed,stepped])
    | some after =>
      have := decideUnshadowed depth after.1 ops
      decidable_of_iff (op.Clear map ∧ Unshadowed depth after.1 ops) (by simp [Unshadowed,stepped])

theorem join_update (m : List U8 → Option (Pointer V)) (key : List U8) (v : Option (Pointer V)) :
    (fun k => (Function.update m key v k).join) = Function.update (fun k => (m k).join) key v.join := by
  funext k
  by_cases same : k = key
  · subst same
    rw [Function.update_self,Function.update_self]
  · rw [Function.update_of_ne same,Function.update_of_ne same]

theorem step_intact (depth : Nat) (intact : Intact map m) (op : Op V) (clear : op.Clear map)
    (few : 100 * map.used < 2 ^ 31) :
    ∃ map' m', step (depth + 2) map op = some (map',op.answer fun k => (m k).join) ∧ Intact map' m' ∧
      (fun k => (m' k).join) = op.update (fun k => (m k).join) ∧
      map'.used ≤ map.used + (if op.isPut then 1 else 0) := by
  cases op with
  | get key =>
    refine ⟨map,m,?_,intact,rfl,Nat.le_refl _⟩
    rw [step,get2_intact intact]
    rfl
  | put key val =>
    obtain ⟨map',put,intact',used',_⟩ := put2_intact depth intact clear val few
    refine ⟨map',_,?_,intact',join_update m key _,used'⟩
    rw [step,put]
    rfl
  | delete key =>
    obtain ⟨map',deleted,intact',used'⟩ := delete2_intact intact key
    refine ⟨map',_,?_,intact',join_update m key _,used'.le⟩
    rw [step,deleted]
    rfl

theorem run_intact (depth : Nat) (ops : List (Op V)) (intact : Intact map m) (clear : Unshadowed (depth + 2) map ops)
    (few : 100 * (map.used + ops.countP Op.isPut) < 2 ^ 31) :
    ∃ map' m', run (depth + 2) map ops = some (map',answers (fun k => (m k).join) ops) ∧ Intact map' m' ∧
      map'.used ≤ map.used + ops.countP Op.isPut := by
  induction ops generalizing map m with
  | nil => exact ⟨map,m,rfl,intact,Nat.le_refl _⟩
  | cons op ops ih =>
    rw [List.countP_cons] at few
    obtain ⟨map',m',stepped,intact',bindings,used'⟩ := step_intact depth intact op clear.1 (by omega)
    obtain ⟨map'',m'',ran,intact'',used''⟩ := ih intact' (clear.2 _ stepped) (by omega)
    refine ⟨map'',m'',?_,intact'',?_⟩
    · rw [run,stepped]
      simp only [Option.bind_eq_bind,Option.bind_some,ran,answers,bindings]
      rfl
    · rw [List.countP_cons]
      omega

-- hashmap_get2 answers as the finite map does.
theorem hashmap_refines (depth : Nat) (ops : List (Op V)) (clear : Unshadowed (depth + 2) zeroed ops)
    (few : 100 * ops.countP Op.isPut < 2 ^ 31) :
    (run (depth + 2) zeroed ops).map (·.2) = some (answers (fun _ => none) ops) := by
  obtain ⟨map',m',ran,_⟩ := run_intact depth ops zeroed_intact clear (by show 100 * (0 + _) < _; omega)
  rw [ran]
  rfl

namespace Controls

-- "a" and "q" start at one entry.
def a : List U8 := [97]
def q : List U8 := [113]

def history : List (Op Nat) :=
  [.put a (some 1),.put q (some 2),.delete a,.get q,.get a,.put a (some 3),.put a (some 4),.get a,.delete q,.get q]

-- "q" after "a" was deleted.
def behind : HashMap Nat := ⟨some (((List.replicate 16 .empty).set 14 .deleted).set 15 (.full q (some 2))),16,2⟩

end Controls

open Controls in
theorem hashmap_refines_history : Unshadowed 2 zeroed history ∧
    (run 2 zeroed history).map (·.2) = some [some 2,none,some 4,none] := by
  have clear : Unshadowed 2 zeroed history := by decide
  exact ⟨clear,hashmap_refines 0 history clear (by decide)⟩

theorem undeleted_unshadowed (depth : Nat) (ops : List (Op V)) (intact : Intact map m) (undeleted : Undeleted map)
    (never : ∀ key, .delete key ∉ ops) (few : 100 * (map.used + ops.countP Op.isPut) < 2 ^ 31) :
    Unshadowed (depth + 2) map ops := by
  induction ops generalizing map m with
  | nil => trivial
  | cons op ops ih =>
    rw [List.countP_cons] at few
    have later : ∀ key, .delete key ∉ ops := fun key member => never key (.tail _ member)
    cases op with
    | get key =>
      refine ⟨trivial,fun after stepped => ?_⟩
      rw [step,get2_intact intact] at stepped
      cases stepped
      exact ih intact undeleted later (by show 100 * (map.used + _) < _; omega)
    | put key val =>
      refine ⟨undeleted_clear intact undeleted,fun after stepped => ?_⟩
      obtain ⟨map'',put,intact',used',kept⟩ := put2_intact depth intact (undeleted_clear intact undeleted) val (by omega)
      rw [step,put] at stepped
      cases stepped
      refine ih intact' (kept undeleted) later ?_
      simp only [Op.isPut,if_true] at few
      show 100 * (map''.used + _) < _
      omega
    | delete key => exact absurd (.head _) (never key)

-- A map from which nothing is ever deleted, as all but that of the macros.
theorem hashmap_without_deletes (depth : Nat) (ops : List (Op V)) (never : ∀ key, .delete key ∉ ops)
    (few : 100 * ops.countP Op.isPut < 2 ^ 31) :
    (run (depth + 2) zeroed ops).map (·.2) = some (answers (fun _ => none) ops) := by
  have fewer : 100 * ((zeroed : HashMap V).used + ops.countP Op.isPut) < 2 ^ 31 := by
    show 100 * (0 + _) < _
    omega
  obtain ⟨map',m',ran,_⟩ :=
    run_intact depth ops zeroed_intact (undeleted_unshadowed depth ops zeroed_intact nofun never fewer) fewer
  rw [ran]
  rfl

-- The first stop of a put whose key is shadowed.
theorem shadowed_stops (sound : Sound map t m) {old : Pointer V} (bound : m key = some old) (shadowed : Shadowed map key) :
    ∃ d < t.length, t[probe start t.length key d]? = some Slot.deleted ∧
      ∀ i < d, ∀ ent, t[probe start t.length key i]? = some ent → ¬Halts key ent := by
  obtain ⟨j,at_j⟩ := (sound.represents key old).mp bound
  obtain ⟨d,below,⟨ent,at_d,halts⟩,first⟩ :=
    search_first start (Halts key) (.inr (.inl rfl)) sound.room key
  rcases bound_stops (fun v => .inr (.inr ⟨v,rfl⟩)) (fun _ _ => halts_own) sound.searchable sound.single at_j at_d halts
    first with own | ⟨rfl,_⟩
  · obtain ⟨e,inside,⟨v,at_e⟩,i,less,deleted⟩ := shadowed
    rw [sound.capacity] at inside
    rw [entryAt_probe sound] at at_e deleted
    have same : probe start t.length key e = probe start t.length key d := by
      rw [own]
      exact sound.single _ _ key v old at_e at_j
    rcases Nat.lt_trichotomy e d with before | rfl | after
    · exact absurd same (probe_apart before below)
    · exact absurd (.inl rfl) (first i less .deleted deleted)
    · exact absurd same.symm (probe_apart after inside)
  · exact ⟨d,below,at_d,first⟩

open Controls in
theorem hashmap_without_deletes_twice :
    (run 2 zeroed [.put a (some 1),.put q (some 2),.put a (some 3),.get a,.get q]).map (·.2) = some [some 3,some 2] :=
  hashmap_without_deletes 0 [.put a (some 1),.put q (some 2),.put a (some 3),.get a,.get q] (by simp) (by decide)

-- A put that meets a deleted entry before the key's own leaves that one where it is.
theorem put_then_delete_intact (depth : Nat) (intact : Intact map m) {old : Pointer V} (bound : m key = some old) (val : Pointer V)
    (few : 100 * map.used < 2 ^ 31) (room : 100 * map.used < 70 * map.capacity) :
    ∃ map' map'', put2 (depth + 1) map key val = some map' ∧ get2 map' key = some val ∧ delete2 map' key = some map'' ∧
      (Shadowed map key → map'' = map) ∧ (¬Shadowed map key → get2 map'' key = some none) := by
  have settle : ∀ map', Intact map' (Function.update m key (some val)) → get2 map' key = some val ∧
      ∃ map'', delete2 map' key = some map'' ∧ get2 map'' key = some none := by
    intro map' intact'
    obtain ⟨map'',deleted,intact'',_⟩ := delete2_intact intact' key
    refine ⟨?_,map'',deleted,?_⟩
    · rw [get2_intact intact',Function.update_self]
      rfl
    · rw [get2_intact intact'',Function.update_self]
      rfl
  rcases intact with ⟨_,rfl⟩ | ⟨t,sound⟩
  · cases bound
  rw [sound.capacity] at room
  by_cases shadowed : Shadowed map key
  · obtain ⟨d,below,at_d,first⟩ := shadowed_stops sound bound shadowed
    obtain ⟨e,_,power⟩ := sound.power
    have inside := sound.inside key d
    obtain ⟨p,place_p⟩ : ∃ p, p = probe start t.length key d := ⟨_,rfl⟩
    have found : search map key (insertTurn key) = some (p,false) := by
      rw [place_p]
      exact sound.search below at_d rfl fun i less ent found => insert_passes (first i less ent found) _
    rw [← place_p] at at_d inside
    have put : put2 (depth + 1) map key val = some ⟨some (t.set p (.full key val)),map.capacity,map.used⟩ := by
      rw [put2,prepare_idle sound few room]
      simp only [place,found,Option.bind_eq_bind,Option.bind_some,sound.buckets]
      rfl
    have again : getEntry ⟨some (t.set p (.full key val)),map.capacity,map.used⟩ key = some (some p) := by
      have here : (t.set p (.full key val))[probe start (t.set p (.full key val)).length key d]? = some (.full key val) := by
        rw [List.length_set,← place_p,List.getElem?_set_self inside]
      refine search_at (e := e) rfl (by rw [List.length_set,sound.capacity]) (by rw [List.length_set,power])
        (by rw [List.length_set]; exact sound.int) (by rwa [List.length_set]) here ?_ ?_
      · rw [List.length_set,← place_p,getTurn,if_pos rfl]
      · intro i less ent found
        rw [List.length_set,List.getElem?_set_ne (by rw [place_p]; exact (probe_apart less below).symm)] at found
        exact get_passes (fun ends => first i less ent found (.inr ends)) _
    refine ⟨_,map,put,?_,?_,fun _ => rfl,fun clear => absurd shadowed clear⟩
    · unfold get2
      rw [again]
      simp [entryAt,inside]
    · unfold delete2
      rw [again]
      obtain ⟨_,removed⟩ := List.getElem?_eq_some_iff.mp at_d
      have back : (t.set p (.full key val)).set p .deleted = t := by
        rw [List.set_set,← removed,List.set_getElem_self]
      simp only [Option.bind_eq_bind,Option.bind_some,Option.map_some,back,← sound.buckets]
      rfl
  · obtain ⟨map',put,intact',_⟩ := put2_placed val (prepare_idle sound few room) sound shadowed room
    obtain ⟨got,map'',deleted,gone⟩ := settle map' intact'
    exact ⟨map',map'',put,got,deleted,fun other => absurd other shadowed,fun _ => gone⟩

-- So it is in every state a run reaches.
theorem put_then_delete (depth : Nat) (ops : List (Op V)) (clear : Unshadowed (depth + 2) zeroed ops)
    (few : 100 * ops.countP Op.isPut < 2 ^ 31) {map : HashMap V} {out : List (Pointer V)}
    (ran : run (depth + 2) zeroed ops = some (map,out)) {key : List U8} {j : Nat} (bound : getEntry map key = some (some j))
    (val : Pointer V) (room : 100 * map.used < 70 * map.capacity) :
    ∃ map' map'', put2 (depth + 1) map key val = some map' ∧ get2 map' key = some val ∧ delete2 map' key = some map'' ∧
      (Shadowed map key → map'' = map) ∧ (¬Shadowed map key → get2 map'' key = some none) := by
  have fewer : 100 * ((zeroed : HashMap V).used + ops.countP Op.isPut) < 2 ^ 31 := by
    show 100 * (0 + _) < _
    omega
  obtain ⟨map',m,ran',intact,used⟩ := run_intact depth ops zeroed_intact clear fewer
  cases ran.symm.trans ran'
  cases present : m key with
  | some old => exact put_then_delete_intact depth intact present val (by omega) room
  | none =>
    rcases intact with ⟨rfl,_⟩ | ⟨t,sound⟩
    · cases bound
    · rw [getEntry_unbound sound present] at bound
      cases bound

open Controls in
theorem put_then_delete_resurrects : ∃ map map' : HashMap Nat,
    run 2 zeroed [.put a (some 1),.put q (some 2),.delete a] = some (map,[]) ∧ put2 1 map q (some 3) = some map' ∧
      get2 map' q = some (some 3) ∧ delete2 map' q = some map ∧ get2 map q = some (some 2) := by
  have reached : run 2 (zeroed : HashMap Nat) [.put a (some 1),.put q (some 2),.delete a] = some (behind,[]) := by decide
  have bound : getEntry behind q = some (some 15) := by decide
  obtain ⟨map',map'',put,got,deleted,back,_⟩ := put_then_delete 0 [.put a (some 1),.put q (some 2),.delete a] (by decide)
    (by decide) reached bound (some 3) (by decide)
  rw [back (by decide)] at deleted
  exact ⟨behind,map',reached,put,got,deleted,by decide⟩

end

end SandboxStack.Hashmap
