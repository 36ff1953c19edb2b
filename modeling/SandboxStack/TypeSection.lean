import SandboxStack.GenModule

namespace SandboxStack.Cc
open Wasm Leb128

-- What a function type says on the wasm side; `none` is a value of type void.
structure Classes where
  params : List (Option ValueType)
  result : Option ValueType
  deriving DecidableEq, Repr

def functionClasses : Ty → Classes
  | .func returnTy params isVariadic => ⟨paramClasses returnTy params isVariadic,resultClass returnTy⟩
  | _ => ⟨[],none⟩

-- Reading the type section back.
def readValtype (b : U8) : Option (Option ValueType) :=
  if b = 0 then some none
  else if b = 0x7f then some (some .i32)
  else if b = 0x7e then some (some .i64)
  else if b = 0x7d then some (some .f32)
  else if b = 0x7c then some (some .f64)
  else none

def readValtypes : Nat → Bytes → Option (List (Option ValueType) × Bytes)
  | 0,bytes => some ([],bytes)
  | _+1,[] => none
  | n+1,b :: rest => do
    let v ← readValtype b
    let (vs,rest) ← readValtypes n rest
    return (v :: vs,rest)

def readResult : Bytes → Option (Option ValueType × Bytes)
  | 0 :: rest => some (none,rest)
  | 1 :: b :: rest => do
    let v ← readValtype b
    return (v,rest)
  | _ => none

def readEntry : Bytes → Option (Classes × Bytes)
  | b :: bytes =>
    if b = 0x60 then do
      let (n,bytes) ← readUleb bytes
      let (ps,bytes) ← readValtypes n bytes
      let (rc,bytes) ← readResult bytes
      return (⟨ps,rc⟩,bytes)
    else none
  | [] => none

def readEntries : Nat → Bytes → Option (List Classes)
  | 0,bytes => if bytes = [] then some [] else none
  | n+1,bytes => do
    let (first,bytes) ← readEntry bytes
    let rest ← readEntries n bytes
    return first :: rest

theorem valtype_roundtrip (v : Option ValueType) : readValtype (valtype v) = some v := by
  rcases v with _ | v
  · rfl
  · cases v <;> rfl

theorem valtypes_roundtrip (vs : List (Option ValueType)) (suffix : Bytes) :
    readValtypes vs.length (vs.map valtype ++ suffix) = some (vs,suffix) := by
  induction vs with
  | nil => rfl
  | cons v rest ih => simp [readValtypes,valtype_roundtrip,ih]

theorem result_roundtrip (rc : Option ValueType) (suffix : Bytes) :
    readResult (resultBytes rc ++ suffix) = some (rc,suffix) := by
  cases rc with
  | none => rfl
  | some rc => simp [readResult,resultBytes,valtype_roundtrip]

theorem entry_roundtrip {ty : Ty} (function : ty.isFunc = true) (suffix : Bytes) :
    readEntry (typeEntry ty ++ suffix) = some (functionClasses ty,suffix) := by
  cases ty with
  | func returnTy params isVariadic =>
    have count := uleb_roundtrip (paramClasses returnTy params isVariadic).length
    have ps := valtypes_roundtrip (paramClasses returnTy params isVariadic)
    have rc := result_roundtrip (resultClass returnTy)
    unfold typeEntry functionClasses
    simp [readEntry,count,ps,rc]
  | _ => cases function

theorem entries_roundtrip {tys : List Ty} (functions : ∀ ty ∈ tys, ty.isFunc = true) :
    readEntries tys.length (tys.map typeEntry).flatten = some (tys.map functionClasses) := by
  induction tys with
  | nil => rfl
  | cons ty rest ih =>
    have first := entry_roundtrip (functions ty (List.mem_cons_self ..)) (rest.map typeEntry).flatten
    have later := ih fun t member => functions t (List.mem_cons_of_mem _ member)
    simp [readEntries,first,later]

-- Entries of different classes have different bytes.
theorem entry_classes {ty ty' : Ty} (function : ty.isFunc = true) (function' : ty'.isFunc = true)
    (same : typeEntry ty = typeEntry ty') : functionClasses ty = functionClasses ty' := by
  have one := entry_roundtrip function []
  rw [same,entry_roundtrip function' []] at one
  simp only [Option.some.injEq,Prod.mk.injEq,and_true] at one
  exact one.symm

-- Adding entries keeps the ones there, at their positions.
theorem addTypeEntry_extends (entries : List Bytes) (e : Bytes) : entries <+: addTypeEntry entries e := by
  unfold addTypeEntry
  split
  · exact List.prefix_rfl
  · exact List.prefix_append ..

theorem addTypeEntry_member (entries : List Bytes) (e : Bytes) : e ∈ addTypeEntry entries e := by
  unfold addTypeEntry
  split
  · assumption
  · simp

theorem addTypeEntries_extends (entries : List Bytes) (tys : List Ty) : entries <+: addTypeEntries entries tys := by
  induction tys generalizing entries with
  | nil => exact List.prefix_rfl
  | cons ty rest ih => exact (addTypeEntry_extends entries (typeEntry ty)).trans (ih _)

theorem addTypeEntries_member {entries : List Bytes} {tys : List Ty} {ty : Ty} (asked : ty ∈ tys) :
    typeEntry ty ∈ addTypeEntries entries tys := by
  induction tys generalizing entries with
  | nil => cases asked
  | cons first rest ih =>
    rcases List.mem_cons.mp asked with rfl | later
    · exact (addTypeEntries_extends _ rest).subset (addTypeEntry_member entries (typeEntry ty))
    · exact ih later

theorem addTypeEntries_map {entries : List Bytes} {tys known : List Ty} (start : entries = known.map typeEntry) :
    ∃ all : List Ty, addTypeEntries entries tys = all.map typeEntry ∧ ∀ ty ∈ all, ty ∈ known ∨ ty ∈ tys := by
  induction tys generalizing entries known with
  | nil => exact ⟨known,start,fun ty member => .inl member⟩
  | cons first rest ih =>
    have next : ∃ more : List Ty, addTypeEntry entries (typeEntry first) = more.map typeEntry ∧
        ∀ ty ∈ more, ty ∈ known ∨ ty = first := by
      unfold addTypeEntry
      split
      · exact ⟨known,start,fun ty member => .inl member⟩
      · refine ⟨known ++ [first],by simp [start],?_⟩
        intro ty member
        simpa using member
    obtain ⟨more,added,from_⟩ := next
    obtain ⟨all,whole,origin⟩ := ih added
    refine ⟨all,whole,fun ty member => ?_⟩
    rcases origin ty member with old | later
    · rcases from_ ty old with known_ | rfl
      · exact .inl known_
      · exact .inr (List.mem_cons_self ..)
    · exact .inr (List.mem_cons_of_mem _ later)

-- Every type asked for has an entry at its index, and that entry reads as its classes.
theorem typeEntries_denote {tys : List Ty} (functions : ∀ ty ∈ tys, ty.isFunc = true) :
    ∃ all, readEntries (addTypeEntries [] tys).length (addTypeEntries [] tys).flatten = some all ∧
      ∀ ty ∈ tys, all[(addTypeEntries [] tys).idxOf (typeEntry ty)]? = some (functionClasses ty) := by
  have start : ([] : List Bytes) = ([] : List Ty).map typeEntry := rfl
  obtain ⟨known,whole,origin⟩ := @addTypeEntries_map _ tys _ start
  have known_functions : ∀ ty ∈ known, ty.isFunc = true := by
    intro ty member
    rcases origin ty member with none_ | asked
    · cases none_
    · exact functions ty asked
  have read := entries_roundtrip known_functions
  rw [← whole] at read
  refine ⟨known.map functionClasses,by rw [← read,whole,List.length_map],fun ty asked => ?_⟩
  have present : (addTypeEntries [] tys).idxOf (typeEntry ty) < (addTypeEntries [] tys).length :=
    List.idxOf_lt_length_of_mem (addTypeEntries_member asked)
  have found := List.getElem_idxOf present
  have entry := List.getElem?_eq_getElem present
  rw [found] at entry
  have mapped : (known.map typeEntry)[(addTypeEntries [] tys).idxOf (typeEntry ty)]? = some (typeEntry ty) := by
    rw [← whole]
    exact entry
  rw [List.getElem?_map] at mapped
  obtain ⟨ty',at_,same⟩ := Option.map_eq_some_iff.mp mapped
  rw [List.getElem?_map,at_]
  exact congrArg some (entry_classes (known_functions ty' (List.mem_of_getElem? at_)) (functions ty asked) same)

end SandboxStack.Cc
