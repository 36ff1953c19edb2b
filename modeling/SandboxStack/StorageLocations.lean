import SandboxStack.IndexSpaces
import SandboxStack.RelinkedScan

namespace SandboxStack.Cc
open Wasm LittleEndian RelinkedScan

-- ---- the globals of a translation unit ----

structure Initialiser where
  bytes : Bytes
  rel : List Relocation

-- What makes a global: the declaration of a file-scope variable, or a
-- function, a string literal or a static local, which have no tentative definitions.
inductive Declared where
  | gvar (isExtern : Bool) (v : Obj) (align : Int) (init : Option Initialiser)
  | other (g : Global)

structure GlobalObj where
  global : Global
  isTentative : Bool

def globalVariable (isExtern : Bool) (v : Obj) (align : Int) (init : Option Initialiser) : GlobalObj where
  global := ⟨{v with isLocal := false,isFunction := false},align,!isExtern,init.map Initialiser.bytes,
    (init.map Initialiser.rel).getD [],[],[],none,.block []⟩
  isTentative := init.isNone && !isExtern && !v.isTls

def Declared.object : Declared → GlobalObj
  | .gvar isExtern v align init => globalVariable isExtern v align init
  | .other g => ⟨g,false⟩

-- The list `globals`: the objects in the order they were made, and their links.
structure GlobalList where
  objs : List GlobalObj
  next : Nat → Option Nat
  globals : Option Nat

def newGvar (l : GlobalList) (o : GlobalObj) : GlobalList :=
  ⟨l.objs ++ [o],Function.update l.next l.objs.length l.globals,some l.objs.length⟩

def declareAll (unit : List Declared) : GlobalList := unit.foldl (fun l d => newGvar l d.object) ⟨[],fun _ => none,none⟩

def tentativeAt (objs : List GlobalObj) (i : Nat) : Bool := (objs[i]?.map GlobalObj.isTentative).getD false

-- Another definition of the same identifier.
def definedAgain (objs : List GlobalObj) (i j : Nat) : Bool :=
  match objs[i]?,objs[j]? with
  | some var,some var2 => i != j && var2.global.isDefinition && var.global.name == var2.global.name
  | _,_ => false

def scanGlobals (l : GlobalList) : GlobalList :=
  let n := l.objs.length
  let s := (Scan.run (tentativeAt l.objs) (definedAgain l.objs) l.globals n n l.globals ⟨l.next,none,none⟩).close
  ⟨l.objs,s.next,s.first⟩

def GlobalList.program (l : GlobalList) : Program :=
  (walk l.next l.objs.length l.globals).filterMap fun i => l.objs[i]?.map GlobalObj.global

def parse (unit : List Declared) : Program := (scanGlobals (declareAll unit)).program

-- ---- one location for a name ----

def Declared.name : Declared → String
  | .gvar _ v _ _ => v.name
  | .other g => g.name

def Declared.init : Declared → Option Initialiser
  | .gvar _ _ _ init => init
  | .other _ => none

-- A definition in the language's sense, tentative or with an initialiser.
def Declared.defines : Declared → Bool
  | .gvar isExtern _ _ init => !isExtern || init.isSome
  | .other _ => false

-- What code and initialisers that refer to the name get.
structure Resolves (prog : Program) (l : Layout) (name : String) (address : Nat) : Prop where
  code : ∀ funcs entries (v : Obj), v.name = name → v.isFunction = false →
    globalAddr (moduleContext funcs entries l) v = .ok address
  data : ∀ funcs entries offset (rel : Relocation), rel.label.text = name →
    relocationWrites (moduleContext funcs entries l) prog offset [rel] =
      .ok [(offset + rel.offset,leBytes 4 (BitVec.ofInt 32 (address + rel.addend)).toNat)]

-- Exactly one object of the name is left, with the initialiser that was given,
-- and every reference is to it.
def OneLocation (unit : List Declared) (l : Layout) (name : String) : Prop :=
  ∃ place g,l.placed.filter (·.name == name) = [place] ∧ (parse unit).reverse[place.position]? = some g ∧ g.name = name ∧
    g.isDefinition = true ∧
    (∀ d ∈ unit, d.name = name → ∀ init, d.init = some init → g.initData = some init.bytes ∧ g.rel = init.rel) ∧
    Resolves (parse unit).reverse l name place.offset

-- No `extern` declaration of the name has an initialiser, and a definition of it stays.
structure Located (unit : List Declared) (name : String) : Prop where
  plain : ∀ v align init, Declared.gvar true v align (some init) ∈ unit → v.name ≠ name
  stays : ∃ i d,Stays (tentativeAt (unit.map Declared.object)) (definedAgain (unit.map Declared.object)) unit.length i ∧
    unit[i]? = some d ∧ d.name = name ∧ d.object.global.isDefinition = true

section
variable {unit : List Declared} {name : String} {prog rest : Program} {l : Layout} {o : Options} {i j : Nat} {g : Global}

-- Each object is linked to the one made before it.
structure Stacked (l : GlobalList) (unit : List Declared) : Prop where
  objs : l.objs = unit.map Declared.object
  globals : l.globals = (List.range unit.length).reverse.head?
  links : Leads l.next l.globals (List.range unit.length).reverse none

theorem newGvar_stacked {list : GlobalList} {d : Declared} (stacked : Stacked list unit) :
    Stacked (newGvar list d.object) (unit ++ [d]) := by
  have length : list.objs.length = unit.length := by rw [stacked.objs,List.length_map]
  refine ⟨?_,?_,?_⟩
  · simp [newGvar,stacked.objs]
  · simp [newGvar,length,List.range_succ]
  · have fresh : unit.length ∉ (List.range unit.length).reverse := by simp
    rw [List.length_append,List.length_singleton,List.range_succ,List.reverse_append]
    simp only [newGvar,length]
    refine .node ?_
    rw [Function.update_self]
    exact leads_update fresh stacked.links

theorem declareAll_stacked (unit : List Declared) : Stacked (declareAll unit) unit := by
  have from_ : ∀ (more before : List Declared) (list : GlobalList), Stacked list before →
      Stacked (more.foldl (fun l d => newGvar l d.object) list) (before ++ more) := by
    intro more
    induction more with
    | nil =>
      intro before list stacked
      rwa [List.append_nil]
    | cons d more ih =>
      intro before list stacked
      have next := ih (before ++ [d]) _ (newGvar_stacked (d := d) stacked)
      rwa [List.append_assoc] at next
  exact from_ unit [] _ ⟨rfl,rfl,.done⟩

theorem tentative_definition {objs : List GlobalObj} (same : objs = unit.map Declared.object) (tentative : tentativeAt objs i = true) :
    ∃ o,objs[i]? = some o ∧ o.isTentative = true ∧ o.global.isDefinition = true := by
  unfold tentativeAt at tentative
  cases at_ : objs[i]? with
  | none => rw [at_] at tentative; cases tentative
  | some o =>
    rw [at_] at tentative
    refine ⟨o,rfl,tentative,?_⟩
    rw [same,List.getElem?_map] at at_
    obtain ⟨d,_,rfl⟩ := Option.map_eq_some_iff.mp at_
    cases d with
    | gvar isExtern v align init =>
      simp only [Option.map_some,Option.getD_some,Declared.object,globalVariable,Bool.and_eq_true] at tentative
      exact tentative.1.2
    | other g => cases tentative

theorem unit_twins (unit : List Declared) : Twins (tentativeAt (unit.map Declared.object)) (definedAgain (unit.map Declared.object))
    unit.length where
  apart i := by
    unfold definedAgain
    split <;> simp
  back i j _ _ tentative again := by
    obtain ⟨o,at_,_,definition⟩ := tentative_definition rfl tentative
    unfold definedAgain at again ⊢
    rw [at_] at again ⊢
    split at again
    · rename_i var var2 first second
      cases first
      simp only [Bool.and_eq_true,bne_iff_ne,beq_iff_eq] at again
      rw [second]
      simp only [Bool.and_eq_true,bne_iff_ne,beq_iff_eq]
      exact ⟨⟨fun same => again.1.1 same.symm,definition⟩,again.2.symm⟩
    · cases again

-- What the parser hands on: the objects that stay.
theorem parse_member : g ∈ parse unit ↔ ∃ i d,Stays (tentativeAt (unit.map Declared.object)) (definedAgain (unit.map Declared.object))
    unit.length i ∧ unit[i]? = some d ∧ d.object.global = g := by
  obtain ⟨objs,globals,leads⟩ := declareAll_stacked unit
  have length : (declareAll unit).objs.length = unit.length := by rw [objs,List.length_map]
  have walked : walk (scanGlobals (declareAll unit)).next unit.length (scanGlobals (declareAll unit)).globals =
      (Seen.run (tentativeAt (unit.map Declared.object)) (definedAgain (unit.map Declared.object)) (List.range unit.length).reverse
        ⟨[],[],[]⟩).kept := by
    unfold scanGlobals
    rw [length,objs,globals]
    rw [globals] at leads
    exact scan_exact leads (List.nodup_reverse.mpr List.nodup_range) (Nat.le_of_eq (by simp))
  have kept := run_stays (unit_twins unit)
  have program : parse unit = (walk (scanGlobals (declareAll unit)).next unit.length (scanGlobals (declareAll unit)).globals).filterMap
      fun i => (unit.map Declared.object)[i]?.map GlobalObj.global := by
    unfold parse GlobalList.program
    rw [show (scanGlobals (declareAll unit)).objs = unit.map Declared.object from objs,List.length_map]
  rw [program,walked,List.mem_filterMap]
  constructor
  · rintro ⟨i,member,at_⟩
    rw [List.getElem?_map,Option.map_map] at at_
    obtain ⟨d,found,same⟩ := Option.map_eq_some_iff.mp at_
    exact ⟨i,d,(kept i).mp member,found,same⟩
  · rintro ⟨i,d,stays,found,same⟩
    refine ⟨i,(kept i).mpr stays,?_⟩
    rw [List.getElem?_map,found]
    exact congrArg some same

-- One location a name, and each that of a definition of it.
structure Sourced (prog : Program) (placed : List Placed) : Prop where
  names : (placed.map Placed.name).Nodup
  source : ∀ p ∈ placed, ∃ g, prog[p.position]? = some g ∧ g.name = p.name ∧ g.isDefinition = true

theorem placeGlobals_sourced {initialised : Bool} {addr : Nat} {placed : List Placed} {out : Nat × List Placed}
    (ahead : ∀ k, rest[k]? = prog[i + k]?) (made : placeGlobals initialised i rest (addr,placed) = .ok out)
    (sourced : Sourced prog placed) : Sourced prog out.2 := by
  induction rest generalizing i addr placed with
  | nil =>
    cases made
    exact sourced
  | cons var rest ih =>
    have later : ∀ k, rest[k]? = prog[i + 1 + k]? := by
      intro k
      rw [Nat.add_assoc,Nat.add_comm 1 k]
      exact ahead (k + 1)
    unfold placeGlobals at made
    split at made
    · exact ih later made sourced
    rename_i eligible
    split at made
    · split at made
      · cases made
      · exact ih later made sourced
    rename_i fresh
    dsimp only at made
    split at made
    · cases made
    refine ih later made ⟨?_,fun p member => ?_⟩
    · rw [List.map_append,List.nodup_append]
      refine ⟨sourced.names,List.nodup_singleton _,fun name old other new => ?_⟩
      obtain ⟨p,present,rfl⟩ := List.mem_map.mp old
      cases List.mem_singleton.mp new
      intro same
      exact fresh (List.any_eq_true.mpr ⟨p,present,beq_iff_eq.mpr same⟩)
    · rcases List.mem_append.mp member with old | new
      · exact sourced.source p old
      · cases List.mem_singleton.mp new
        refine ⟨var,(ahead 0).symm,rfl,?_⟩
        simp only [Bool.or_eq_true,not_or,Bool.not_eq_true',Bool.not_eq_false] at eligible
        exact eligible.1.2

theorem placeGlobals_covers {initialised : Bool} {addr : Nat} {placed : List Placed} {out : Nat × List Placed}
    (made : placeGlobals initialised i rest (addr,placed) = .ok out) (member : g ∈ rest) (variable_ : g.isFunction = false)
    (definition : g.isDefinition = true) (kind : g.initData.isSome = initialised) : ∃ p ∈ out.2, p.name = g.name := by
  induction rest generalizing i addr placed with
  | nil => cases member
  | cons var rest ih =>
    rcases List.mem_cons.mp member with rfl | more
    · unfold placeGlobals at made
      rw [variable_,definition,kind] at made
      simp only [Bool.not_true,Bool.or_self,bne_self_eq_false,Bool.false_eq_true,if_false] at made
      split at made
      · rename_i old
        obtain ⟨p,present,same⟩ := List.any_eq_true.mp old
        split at made
        · cases made
        · exact ⟨p,(placeGlobals_extends made).2.subset present,beq_iff_eq.mp same⟩
      · split at made
        · cases made
        · exact ⟨_,(placeGlobals_extends made).2.subset (List.mem_append_right _ (List.mem_singleton.mpr rfl)),rfl⟩
    · obtain ⟨_,_,_,_,made⟩ := placeGlobals_next made
      exact ih made more

theorem layout_sourced (made : layoutGlobals o prog = .ok l) : Sourced prog l.placed := by
  obtain ⟨⟨dataEnd,placed⟩,one,made⟩ := bind_ok made
  obtain ⟨⟨addr,all⟩,two,made⟩ := bind_ok made
  dsimp only at made
  split at made
  · cases made
  cases made
  have ahead : ∀ k, prog[k]? = prog[0 + k]? := fun k => by rw [Nat.zero_add]
  have first := placeGlobals_sourced ahead one ⟨List.nodup_nil,fun p member => by cases member⟩
  exact placeGlobals_sourced ahead two first

theorem layout_covers (made : layoutGlobals o prog = .ok l) (member : g ∈ prog) (variable_ : g.isFunction = false)
    (definition : g.isDefinition = true) : ∃ p ∈ l.placed, p.name = g.name := by
  obtain ⟨⟨dataEnd,placed⟩,one,made⟩ := bind_ok made
  obtain ⟨⟨addr,all⟩,two,made⟩ := bind_ok made
  dsimp only at made
  split at made
  · cases made
  cases made
  cases kind : g.initData.isSome with
  | true =>
    obtain ⟨p,present,same⟩ := placeGlobals_covers one member variable_ definition kind
    exact ⟨p,(placeGlobals_extends two).2.subset present,same⟩
  | false => exact placeGlobals_covers two member variable_ definition kind

-- Names are not shared, so the location of a name is the only one.
theorem sourced_only {placed : List Placed} {p : Placed} (names : (placed.map Placed.name).Nodup) (member : p ∈ placed) :
    placed.filter (·.name == p.name) = [p] ∧ placed.find? (·.name == p.name) = some p := by
  induction placed with
  | nil => cases member
  | cons q rest ih =>
    rw [List.map_cons,List.nodup_cons] at names
    rcases List.mem_cons.mp member with rfl | later
    · have others : ∀ r ∈ rest, ¬(r.name == p.name) = true := by
        intro r present same
        exact names.1 (List.mem_map.mpr ⟨r,present,beq_iff_eq.mp same⟩)
      constructor
      · rw [List.filter_cons_of_pos (by simp),List.filter_eq_nil_iff.mpr others]
      · simp
    · have other : ¬(q.name == p.name) = true := fun same =>
        names.1 (List.mem_map.mpr ⟨p,later,(beq_iff_eq.mp same).symm⟩)
      obtain ⟨filtered,found⟩ := ih names.2 later
      simp only [beq_iff_eq] at other
      constructor
      · simp [other,filtered]
      · simp [other,found]

theorem object_name (d : Declared) : d.object.global.name = d.name := by cases d <;> rfl

theorem resolves {p : Placed} (found : l.globalDef name = some p) (declared : ∃ g ∈ prog, g.name = name)
    (notFunctions : ∀ g ∈ prog, g.name = name → g.isFunction = false) : Resolves prog l name p.offset := by
  have code : ∀ funcs entries (v : Obj), v.name = name → v.isFunction = false →
      globalAddr (moduleContext funcs entries l) v = .ok p.offset := by
    intro funcs entries v named object
    have known : (moduleContext funcs entries l).globalDef name = some p.offset := by simp [moduleContext,found]
    unfold globalAddr
    rw [object,named,known]
    rfl
  refine ⟨code,fun funcs entries offset rel named => ?_⟩
  obtain ⟨g,member,same⟩ := declared
  obtain ⟨target,resolved⟩ : ∃ target, prog.find? (·.name == name) = some target := by
    cases none : prog.find? (·.name == name) with
    | some target => exact ⟨target,rfl⟩
    | none => exact absurd (beq_iff_eq.mpr same) (List.find?_eq_none.mp none g member)
  have chosen := List.find?_some resolved
  have targetName : target.name = name := beq_iff_eq.mp chosen
  have object := notFunctions target (List.mem_of_find?_eq_some resolved) targetName
  unfold relocationWrites
  rw [named,resolved]
  dsimp only
  rw [code funcs entries target.var targetName object]
  rfl

end

theorem storage_location (o : Options) (unit : List Declared) (l : Layout) (name : String)
    (laid : layoutGlobals o (parse unit).reverse = .ok l) (notFunctions : ∀ g, Declared.other g ∈ unit → g.name ≠ name)
    (once : ∀ (i j : Nat) d d', unit[i]? = some d → unit[j]? = some d' → d.name = name → d'.name = name → d.init.isSome = true →
      d'.init.isSome = true → i = j) :
    OneLocation unit l name ↔ Located unit name := by
  have objects : ∀ g ∈ (parse unit).reverse, g.name = name → g.isFunction = false := by
    intro g member named
    obtain ⟨i,d,_,at_,rfl⟩ := parse_member.mp (List.mem_reverse.mp member)
    cases d with
    | gvar isExtern v align init => rfl
    | other g => exact absurd named (notFunctions g (List.mem_of_getElem? at_))
  have sourced := layout_sourced laid
  constructor
  · rintro ⟨place,g,only,at_,named,definition,given,_⟩
    obtain ⟨i,d,stays,found,rfl⟩ := parse_member.mp (List.mem_reverse.mp (List.mem_of_getElem? at_))
    rw [object_name] at named
    refine ⟨?_,i,d,stays,found,named,definition⟩
    intro v align init declared same
    obtain ⟨j,found'⟩ := List.mem_iff_getElem?.mp declared
    have carried := (given _ declared same init rfl).1
    cases d with
    | other g => exact notFunctions g (List.mem_of_getElem? found) named
    | gvar isExtern v' align' init' =>
      have initialised : init'.isSome = true := by
        simp only [Declared.object,globalVariable] at carried
        obtain ⟨_,present,_⟩ := Option.map_eq_some_iff.mp carried
        rw [present]
        rfl
      cases once i j _ _ found found' named same initialised rfl
      cases found.symm.trans found'
      cases definition
  · rintro ⟨plain,i,d,stays,found,named,definition⟩
    have member : d.object.global ∈ (parse unit).reverse := List.mem_reverse.mpr (parse_member.mpr ⟨i,d,stays,found,rfl⟩)
    have sameName : d.object.global.name = name := (object_name d).trans named
    have references : ∀ p ∈ l.placed, p.name = name → l.placed.filter (·.name == name) = [p] ∧
        Resolves (parse unit).reverse l name p.offset := by
      rintro p present rfl
      obtain ⟨only,found⟩ := sourced_only sourced.names present
      exact ⟨only,resolves found ⟨_,member,sameName⟩ objects⟩
    by_cases given : ∃ (j : Nat) (d' : Declared) (init : Initialiser), unit[j]? = some d' ∧ d'.name = name ∧ d'.init = some init
    · obtain ⟨j,d',init,at_,named',initialised⟩ := given
      obtain ⟨v,align,rfl⟩ : ∃ v align, d' = .gvar false v align (some init) := by
        cases d' with
        | other g => cases initialised
        | gvar isExtern v align init' =>
          cases initialised
          cases isExtern with
          | true => exact absurd named' (plain v align init (List.mem_of_getElem? at_))
          | false => exact ⟨v,align,rfl⟩
      have firm : Stays (tentativeAt (unit.map Declared.object)) (definedAgain (unit.map Declared.object)) unit.length j := by
        refine .firm (List.getElem?_eq_some_iff.mp at_).1 ?_
        unfold tentativeAt
        rw [List.getElem?_map,at_]
        rfl
      have kept := List.mem_reverse.mpr (parse_member.mpr ⟨j,_,firm,at_,rfl⟩)
      obtain ⟨k,position⟩ := List.mem_iff_getElem?.mp kept
      obtain ⟨place,located,own,_⟩ := layout_own laid position rfl
      have chosen := List.find?_some located
      have placeName : place.name = name := (beq_iff_eq.mp chosen).trans named'
      obtain ⟨only,whole⟩ := references place (List.mem_of_find?_eq_some located) placeName
      refine ⟨place,(Declared.gvar false v align (some init)).object.global,only,by rw [own]; exact position,named',rfl,?_,whole⟩
      intro e declared same init' carried
      obtain ⟨i',at'⟩ := List.mem_iff_getElem?.mp declared
      cases once i' j _ _ at' at_ same named' (by rw [carried]; rfl) rfl
      cases at'.symm.trans at_
      cases carried
      exact ⟨rfl,rfl⟩
    · obtain ⟨p,present,same⟩ := layout_covers laid member (objects _ member sameName) definition
      obtain ⟨g,at_,source,definition'⟩ := sourced.source p present
      have placeName := same.trans sameName
      obtain ⟨only,whole⟩ := references p present placeName
      refine ⟨p,g,only,at_,source.trans placeName,definition',?_,whole⟩
      intro e declared same init carried
      obtain ⟨i',at'⟩ := List.mem_iff_getElem?.mp declared
      exact absurd ⟨i',e,init,at',same,carried⟩ given

namespace Controls

def count : Obj := ⟨"count",.int false,false,0,false,false⟩

def tentative : Declared := .gvar false count 4 none

-- extern int count; int count = 7; int count;
def redeclared : List Declared := [.gvar true count 4 none,.gvar false count 4 (some ⟨[7,0,0,0],[]⟩),tentative]

theorem redeclared_given (i : Nat) (d : Declared) (at_ : redeclared[i]? = some d) (given : d.init.isSome = true) : i = 1 := by
  rcases i with _ | _ | _ | i
  · cases at_
    cases given
  · rfl
  · cases at_
    cases given
  · cases at_

end Controls

open Controls in
theorem storage_location_redeclared : ∃ l,layoutGlobals options (parse redeclared).reverse = .ok l ∧
    OneLocation redeclared l "count" := by
  have accepted : (layoutGlobals options (parse redeclared).reverse).toOption.isSome = true := by decide +kernel
  cases laid : layoutGlobals options (parse redeclared).reverse with
  | error e => rw [laid] at accepted; cases accepted
  | ok l =>
    refine ⟨l,rfl,(storage_location options redeclared l "count" laid ?_ ?_).mpr ?_⟩
    · intro g member
      simp [redeclared,tentative] at member
    · intro i j d d' first second _ _ given given'
      rw [redeclared_given i d first given,redeclared_given j d' second given']
    · refine ⟨?_,1,_,.firm (by decide) (by decide),rfl,rfl,rfl⟩
      intro v align init member
      simp [redeclared,tentative] at member

-- int count; int count;
open Controls in
theorem storage_location_fails : ∃ l,layoutGlobals options (parse [tentative,tentative]).reverse = .ok l ∧
    ¬OneLocation [tentative,tentative] l "count" := by
  have nothing : parse [tentative,tentative] = [] := by decide +kernel
  have accepted : (layoutGlobals options (parse [tentative,tentative]).reverse).toOption.isSome = true := by decide +kernel
  cases laid : layoutGlobals options (parse [tentative,tentative]).reverse with
  | error e => rw [laid] at accepted; cases accepted
  | ok l =>
    refine ⟨l,rfl,?_⟩
    rintro ⟨place,g,_,at_,_⟩
    rw [nothing] at at_
    cases at_

end SandboxStack.Cc
