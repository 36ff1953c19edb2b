import SandboxStack.GenModule
import SandboxStack.TypedTrees

namespace SandboxStack.Cc
open LittleEndian

def Global.emitted (g : Global) : Bool := !g.isFunction && g.isDefinition && g.initData.isSome

-- ---- an image and the writes to it ----

section
variable {α : Type} {img bytes : Bytes} {start i : Nat} {writes : List (Nat × Bytes)}

theorem patch_length : (patch img start bytes).length = img.length := by simp [patch]

theorem patch_outside (outside : i < start ∨ start + bytes.length ≤ i) : (patch img start bytes)[i]? = img[i]? := by
  unfold patch
  rw [List.getElem?_mapIdx]
  cases img[i]? with
  | none => rfl
  | some b =>
    refine congrArg some ?_
    split
    · rename_i above
      apply List.getD_eq_default
      omega
    · rfl

theorem patch_inside (above : start ≤ i) (below : i < start + bytes.length) (inside : i < img.length) :
    (patch img start bytes)[i]? = bytes[i - start]? := by
  have room : i - start < bytes.length := by omega
  unfold patch
  rw [List.getElem?_mapIdx,List.getElem?_eq_getElem inside,List.getElem?_eq_getElem room]
  exact congrArg some ((if_pos above).trans (List.getD_eq_getElem _ _ room))

def image (base : Nat) (img : Bytes) (writes : List (Nat × Bytes)) : Bytes :=
  writes.foldl (fun img w => patch img (w.1 - base) w.2) img

theorem image_length (base : Nat) : (image base img writes).length = img.length := by
  induction writes generalizing img with
  | nil => rfl
  | cons w rest ih => exact ih.trans patch_length

theorem image_untouched {base : Nat} (apart : ∀ w ∈ writes, i < w.1 - base ∨ w.1 - base + w.2.length ≤ i) :
    (image base img writes)[i]? = img[i]? := by
  induction writes generalizing img with
  | nil => rfl
  | cons w rest ih =>
    have first : (patch img (w.1 - base) w.2)[i]? = img[i]? := patch_outside (apart w (List.mem_cons_self ..))
    exact (ih fun w' later => apart w' (List.mem_cons_of_mem _ later)).trans first

-- What a write leaves in the image if no later one touches it.
theorem image_written {base k : Nat} {before after : List (Nat × Bytes)} {w : Nat × Bytes} (within : k < w.2.length)
    (inside : w.1 - base + k < img.length)
    (apart : ∀ v ∈ after, w.1 - base + w.2.length ≤ v.1 - base ∨ v.1 - base + v.2.length ≤ w.1 - base) :
    (image base img (before ++ w :: after))[w.1 - base + k]? = w.2[k]? := by
  unfold image
  rw [List.foldl_append,List.foldl_cons]
  have kept : (image base (patch (image base img before) (w.1 - base) w.2) after)[w.1 - base + k]? =
      (patch (image base img before) (w.1 - base) w.2)[w.1 - base + k]? :=
    image_untouched fun v later => by rcases apart v later with above | below <;> omega
  have room : w.1 - base + k < (image base img before).length := (image_length base).symm ▸ inside
  have here : (patch (image base img before) (w.1 - base) w.2)[w.1 - base + k]? = w.2[w.1 - base + k - (w.1 - base)]? :=
    patch_inside (Nat.le_add_right ..) (Nat.add_lt_add_left within _) room
  rw [Nat.add_sub_cancel_left] at here
  exact kept.trans here

end

-- ---- where the initialised globals are placed ----

section
variable {o : Options} {prog : List Global} {name : String} {l : Layout}

theorem alignTo_least {n align : Nat} (positive : 0 < align) : n ≤ alignTo n align := by
  have whole := Nat.div_add_mod (n + align - 1) align
  have small := Nat.mod_lt (n + align - 1) positive
  unfold alignTo
  rw [Nat.mul_comm]
  omega

theorem alignment_positive (align : Int) : 0 < alignment align := by
  unfold alignment
  split <;> omega

section
variable {initialised : Bool} {i j k addr : Nat} {placed : List Placed} {out : Nat × List Placed} {var later : Global}
  {place place' : Placed}

-- A pass only appends to the list, upwards.
theorem placeGlobals_next (made : placeGlobals initialised i (var :: prog) (addr,placed) = .ok out) :
    ∃ addr' placed', addr ≤ addr' ∧ placed <+: placed' ∧ placeGlobals initialised (i + 1) prog (addr',placed') = .ok out := by
  unfold placeGlobals at made
  split at made
  · exact ⟨addr,placed,Nat.le_refl _,List.prefix_rfl,made⟩
  split at made
  · split at made
    · cases made
    · exact ⟨addr,placed,Nat.le_refl _,List.prefix_rfl,made⟩
  dsimp only at made
  split at made
  · cases made
  · have least := alignTo_least (n := addr) (alignment_positive var.align)
    exact ⟨_,_,Nat.le_add_right_of_le least,List.prefix_append ..,made⟩

theorem placeGlobals_extends (made : placeGlobals initialised i prog (addr,placed) = .ok out) :
    addr ≤ out.1 ∧ placed <+: out.2 := by
  induction prog generalizing i addr placed with
  | nil => cases made; exact ⟨Nat.le_refl _,List.prefix_rfl⟩
  | cons var rest ih =>
    obtain ⟨addr',placed',above,kept,made⟩ := placeGlobals_next made
    exact ⟨above.trans (ih made).1,kept.trans (ih made).2⟩

theorem find_extended {placed later : List Placed} (kept : placed <+: later)
    (found : placed.find? (·.name == name) = some place) : later.find? (·.name == name) = some place := by
  obtain ⟨more,rfl⟩ := kept
  rw [List.find?_append,found]
  rfl

-- In the first pass every initialised global gets a location of its own, above
-- those of the earlier ones.
theorem placeGlobals_head (made : placeGlobals true i (var :: prog) (addr,placed) = .ok out) (emitted : var.emitted = true) :
    ∃ place, out.2.find? (·.name == var.name) = some place ∧ place.position = i ∧ addr ≤ place.offset ∧
      ∃ placed', placeGlobals true (i + 1) prog (place.offset + var.var.ty.size ilp32,placed') = .ok out := by
  unfold placeGlobals at made
  simp only [Global.emitted,Bool.and_eq_true,Bool.not_eq_true'] at emitted
  simp only [emitted.1.1,emitted.1.2,emitted.2,Bool.not_true,Bool.or_self,bne_self_eq_false,Bool.false_eq_true,if_false,
    if_true] at made
  split at made
  · cases made
  rename_i fresh
  split at made
  · cases made
  refine ⟨⟨var.name,i,alignTo addr (alignment var.align)⟩,find_extended (placeGlobals_extends made).2 ?_,rfl,
    alignTo_least (alignment_positive _),_,made⟩
  rw [List.find?_append,List.find?_eq_none.mpr fun p member same => fresh (List.any_eq_true.mpr ⟨p,member,same⟩)]
  simp

theorem placeGlobals_own (made : placeGlobals true i prog (addr,placed) = .ok out) (at_ : prog[j]? = some var)
    (emitted : var.emitted = true) :
    ∃ place, out.2.find? (·.name == var.name) = some place ∧ place.position = i + j ∧ addr ≤ place.offset ∧
      place.offset + var.var.ty.size ilp32 ≤ out.1 := by
  induction prog generalizing i j addr placed with
  | nil => cases at_
  | cons g rest ih =>
    cases j with
    | zero =>
      cases at_
      obtain ⟨place,found,own,above,placed',made⟩ := placeGlobals_head made emitted
      exact ⟨place,found,own,above,(placeGlobals_extends made).1⟩
    | succ j =>
      obtain ⟨addr',placed',more,_,made⟩ := placeGlobals_next made
      obtain ⟨place,found,own,above,below⟩ := ih made at_
      exact ⟨place,found,by omega,more.trans above,below⟩

theorem placeGlobals_apart (made : placeGlobals true i prog (addr,placed) = .ok out) (at_ : prog[j]? = some var)
    (after : prog[k]? = some later) (order : j < k) (emitted : var.emitted = true) (emitted' : later.emitted = true)
    (found : out.2.find? (·.name == var.name) = some place) (found' : out.2.find? (·.name == later.name) = some place') :
    place.offset + var.var.ty.size ilp32 ≤ place'.offset := by
  induction prog generalizing i j k addr placed with
  | nil => cases at_
  | cons g rest ih =>
    cases k with
    | zero => cases order
    | succ k =>
      cases j with
      | succ j =>
        obtain ⟨_,_,_,_,made⟩ := placeGlobals_next made
        exact ih made at_ after (Nat.lt_of_succ_lt_succ order)
      | zero =>
        cases at_
        obtain ⟨first,firstFound,_,_,placed',made⟩ := placeGlobals_head made emitted
        obtain ⟨own,ownFound,_,above,_⟩ := placeGlobals_own made after emitted'
        cases firstFound.symm.trans found
        cases ownFound.symm.trans found'
        exact above

end

theorem layout_first (made : layoutGlobals o prog = .ok l) :
    ∃ placed, placeGlobals true 0 prog (dataBase,[]) = .ok (l.dataEnd,placed) ∧ placed <+: l.placed := by
  obtain ⟨⟨dataEnd,placed⟩,one,made⟩ := bind_ok made
  obtain ⟨⟨addr,all⟩,two,made⟩ := bind_ok made
  dsimp only at made
  split at made
  · cases made
  cases made
  exact ⟨placed,one,(placeGlobals_extends two).2⟩

theorem layout_own {j : Nat} {var : Global} (made : layoutGlobals o prog = .ok l) (at_ : prog[j]? = some var)
    (emitted : var.emitted = true) : ∃ place, l.globalDef var.name = some place ∧ place.position = j ∧
      dataBase ≤ place.offset ∧ place.offset + var.var.ty.size ilp32 ≤ l.dataEnd := by
  obtain ⟨placed,one,kept⟩ := layout_first made
  obtain ⟨place,found,own,above,below⟩ := placeGlobals_own one at_ emitted
  rw [Nat.zero_add] at own
  exact ⟨place,find_extended kept found,own,above,below⟩

theorem layout_apart {j k : Nat} {var later : Global} {place place' : Placed} (made : layoutGlobals o prog = .ok l)
    (at_ : prog[j]? = some var) (after : prog[k]? = some later) (order : j < k) (emitted : var.emitted = true)
    (emitted' : later.emitted = true) (found : l.globalDef var.name = some place)
    (found' : l.globalDef later.name = some place') : place.offset + var.var.ty.size ilp32 ≤ place'.offset := by
  obtain ⟨placed,one,kept⟩ := layout_first made
  obtain ⟨first,firstFound,_⟩ := placeGlobals_own one at_ emitted
  obtain ⟨second,secondFound,_⟩ := placeGlobals_own one after emitted'
  cases (find_extended kept firstFound).symm.trans found
  cases (find_extended kept secondFound).symm.trans found'
  exact placeGlobals_apart one at_ after order emitted emitted' firstFound secondFound

end

-- ---- what the initialisers leave in the image ----

-- The addresses in the initialiser of a variable are written as four bytes,
-- whatever the type they are converted to. These are its own four bytes.
structure Global.WholeAddresses (var : Global) : Prop where
  apart : var.rel.Pairwise fun a b => a.offset + 4 ≤ b.offset
  inside : ∀ rel ∈ var.rel, rel.offset + 4 ≤ var.var.ty.size ilp32

section
variable {c : Context} {o : Options} {prog rest : List Global} {l : Layout} {rels : List Relocation} {rel : Relocation}
  {writes : List (Nat × Bytes)} {offset i j : Nat} {var : Global} {place : Placed}

theorem relocationWrites_from (made : relocationWrites c prog offset rels = .ok writes) :
    ∀ w ∈ writes, ∃ rel ∈ rels, w.1 = offset + rel.offset := by
  induction rels generalizing writes with
  | nil => cases made; exact fun w none => nomatch none
  | cons first rest ih =>
    unfold relocationWrites at made
    split at made
    · cases made
    obtain ⟨addr,_,made⟩ := bind_ok made
    obtain ⟨later,one,made⟩ := bind_ok made
    cases made
    intro w member
    rcases List.mem_cons.mp member with rfl | more
    · exact ⟨first,List.mem_cons_self ..,rfl⟩
    · obtain ⟨rel,present,same⟩ := ih one w more
      exact ⟨rel,List.mem_cons_of_mem _ present,same⟩

theorem relocationWrites_split (made : relocationWrites c prog offset rels = .ok writes) (member : rel ∈ rels)
    (apart : rels.Pairwise fun a b => a.offset + 4 ≤ b.offset) :
    ∃ target addr before after, prog.find? (·.name == rel.label.text) = some target ∧ globalAddr c target.var = .ok addr ∧
      writes = before ++ (offset + rel.offset,leBytes 4 (BitVec.ofInt 32 (addr + rel.addend)).toNat) :: after ∧
      ∀ w ∈ after, offset + rel.offset + 4 ≤ w.1 := by
  induction rels generalizing writes with
  | nil => cases member
  | cons first rest ih =>
    unfold relocationWrites at made
    split at made
    · cases made
    rename_i target found
    obtain ⟨addr,known,made⟩ := bind_ok made
    obtain ⟨later,one,made⟩ := bind_ok made
    cases made
    obtain ⟨ahead,apart⟩ := List.pairwise_cons.mp apart
    rcases List.mem_cons.mp member with rfl | more
    · refine ⟨target,addr,[],later,found,known,rfl,fun w present => ?_⟩
      obtain ⟨other,follows,same⟩ := relocationWrites_from one w present
      have above := ahead other follows
      omega
    · obtain ⟨target,addr,before,after,found,known,rfl,clear⟩ := ih one more apart
      exact ⟨target,addr,_ :: before,after,found,known,rfl,clear⟩

-- Each write is into an emitted variable or past its beginning.
theorem dataWrites_from (made : dataWrites c l prog i rest = .ok writes) :
    ∀ w ∈ writes, ∃ (k : Nat) (var : Global) (place : Placed),rest[k]? = some var ∧ var.emitted = true ∧
      l.globalDef var.name = some place ∧ place.offset ≤ w.1 := by
  induction rest generalizing i writes with
  | nil => cases made; exact fun w none => nomatch none
  | cons g rest ih =>
    obtain ⟨later,one,made⟩ := bind_ok made
    have behind : ∀ w ∈ later, ∃ (k : Nat) (var : Global) (place : Placed),(g :: rest)[k]? = some var ∧ var.emitted = true ∧
        l.globalDef var.name = some place ∧ place.offset ≤ w.1 := by
      intro w member
      obtain ⟨k,var,place,at_,facts⟩ := ih one w member
      exact ⟨k + 1,var,place,at_,facts⟩
    split at made
    · rename_i bytes place kind initialised found
      split at made
      · cases made
        exact behind
      · obtain ⟨relocated,two,made⟩ := bind_ok made
        cases made
        have emitted : g.emitted = true := by
          obtain ⟨variable_,definition⟩ := Bool.or_eq_false_iff.mp kind
          simp [Global.emitted,variable_,(Bool.not_eq_eq_eq_not ..).mp definition,initialised]
        intro w member
        rcases List.mem_append.mp member with own | more
        · refine ⟨0,g,place,rfl,emitted,found,?_⟩
          rcases List.mem_cons.mp own with rfl | address
          · exact Nat.le_refl _
          · obtain ⟨rel,_,same⟩ := relocationWrites_from two w address
            exact same ▸ Nat.le_add_right ..
        · exact behind w more
    · cases made
      exact behind

theorem dataWrites_split (made : dataWrites c l prog i rest = .ok writes) (at_ : rest[j]? = some var)
    (emitted : var.emitted = true) (found : l.globalDef var.name = some place) (own : place.position = i + j) :
    ∃ before relocated after, writes = before ++ relocated ++ after ∧
      relocationWrites c prog place.offset var.rel = .ok relocated ∧
      ∀ w ∈ after, ∃ (k : Nat) (later : Global) (place' : Placed),j < k ∧ rest[k]? = some later ∧ later.emitted = true ∧
        l.globalDef later.name = some place' ∧ place'.offset ≤ w.1 := by
  induction rest generalizing i j writes with
  | nil => cases at_
  | cons g rest ih =>
    obtain ⟨later,one,made⟩ := bind_ok made
    cases j with
    | zero =>
      cases at_
      simp only [Global.emitted,Bool.and_eq_true,Bool.not_eq_true'] at emitted
      obtain ⟨bytes,initialised⟩ := Option.isSome_iff_exists.mp emitted.2
      simp only [emitted.1.1,emitted.1.2,initialised,found,own,Bool.not_true,Bool.or_self,Nat.add_zero,ne_eq,not_true_eq_false,
        if_false] at made
      obtain ⟨relocated,two,made⟩ := bind_ok made
      cases made
      refine ⟨[_],relocated,later,rfl,two,fun w member => ?_⟩
      obtain ⟨k,var,place,at_,facts⟩ := dataWrites_from one w member
      exact ⟨k + 1,var,place,Nat.succ_pos k,at_,facts⟩
    | succ j =>
      have next : i + (j + 1) = i + 1 + j := by omega
      obtain ⟨before,relocated,after,rfl,two,behind⟩ := ih one at_ (own.trans next)
      have further : ∀ w ∈ after, ∃ (k : Nat) (later : Global) (place' : Placed),j + 1 < k ∧ (g :: rest)[k]? = some later ∧
          later.emitted = true ∧ l.globalDef later.name = some place' ∧ place'.offset ≤ w.1 := by
        intro w member
        obtain ⟨k,later,place',order,at_,facts⟩ := behind w member
        exact ⟨k + 1,later,place',Nat.succ_lt_succ order,at_,facts⟩
      split at made
      · split at made
        · cases made
          exact ⟨before,relocated,after,rfl,two,further⟩
        · obtain ⟨first,_,made⟩ := bind_ok made
          cases made
          exact ⟨_,relocated,after,by rw [← List.append_assoc,← List.append_assoc],two,further⟩
      · cases made
        exact ⟨before,relocated,after,rfl,two,further⟩

-- The image holds what was resolved last, in the four bytes of the address.
theorem address_written {data : Bytes} (made : emitData c l prog = .ok data) (placed : layoutGlobals o prog = .ok l)
    (at_ : prog[j]? = some var) (emitted : var.emitted = true) (whole : var.WholeAddresses) (member : rel ∈ var.rel) :
    ∃ place target addr, l.globalDef var.name = some place ∧ dataBase ≤ place.offset ∧
      prog.find? (·.name == rel.label.text) = some target ∧ globalAddr c target.var = .ok addr ∧
      ∀ k < 4, data[place.offset + rel.offset + k - dataBase]? =
        (leBytes 4 (BitVec.ofInt 32 (addr + rel.addend)).toNat)[k]? := by
  obtain ⟨writes,written,made⟩ := bind_ok made
  cases made
  obtain ⟨place,found,own,above,below⟩ := layout_own placed at_ emitted
  obtain ⟨before,relocated,after,rfl,two,behind⟩ :=
    dataWrites_split written at_ emitted found (own.trans (Nat.zero_add j).symm)
  obtain ⟨target,addr,before',after',resolved,known,rfl,clear⟩ := relocationWrites_split two member whole.apart
  refine ⟨place,target,addr,found,above,resolved,known,fun k within => ?_⟩
  have room := whole.inside rel member
  have shape : before ++ (before' ++ (place.offset + rel.offset,leBytes 4 (BitVec.ofInt 32 (addr + rel.addend)).toNat) ::
      after') ++ after = (before ++ before') ++ (place.offset + rel.offset,
        leBytes 4 (BitVec.ofInt 32 (addr + rel.addend)).toNat) :: (after' ++ after) := by simp
  have position : place.offset + rel.offset + k - dataBase = place.offset + rel.offset - dataBase + k := by omega
  rw [shape,position]
  apply @image_written _ dataBase
  · exact within
  · rw [List.length_replicate]
    dsimp only
    omega
  · intro v member
    refine .inl ?_
    show place.offset + rel.offset - dataBase + 4 ≤ _
    rcases List.mem_append.mp member with same | later
    · have next := clear v same
      omega
    · obtain ⟨m,later,place',order,at',emitted',found',start⟩ := behind v later
      have next := layout_apart placed at_ at' order emitted emitted' found found'
      omega

end

end SandboxStack.Cc
