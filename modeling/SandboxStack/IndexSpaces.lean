import SandboxStack.DataImage
import SandboxStack.StatementUses
import SandboxStack.TypeSection

namespace SandboxStack.Cc
open Wasm LittleEndian

-- The function index space: imports, then definitions in source order.
def functionNames (prog : Program) (m : Module) : List String :=
  m.imports.entries.map (fun i => "__env_" ++ i.field) ++ (definitions prog).map Global.name

-- What the element segment leaves in a slot of the table; `none` is null.
def Module.slot (m : Module) (i : Nat) : Option Nat :=
  if m.elementOffset ≤ i then m.elements.entries[i - m.elementOffset]? else none

def Module.TypeDenotes (m : Module) (t : Nat) (funcTy : Ty) : Prop :=
  ∃ all, readEntries m.typeCount m.typeBytes = some all ∧ all[t]? = some (functionClasses funcTy)

-- The function address `v` of the function that has this name.
def Module.AddressOf (m : Module) (index : String → Option Nat) (name : String) (v : U32) : Prop :=
  ∃ f, index name = some f ∧ v ≠ 0 ∧ m.slot v.toNat = some f

-- The operand of an instruction for a use.
def Module.Operand (m : Module) (index : String → Option Nat) : Use → Plain → Prop
  | .call name,p => ∃ f, index name = some f ∧ p = .call f
  | .indirect funcTy,p => ∃ t, p = .callIndirect t ∧ m.TypeDenotes t funcTy
  | .address name,p => ∃ v, p = .i32Const v ∧ m.AddressOf index name v

-- The byte the data segment leaves at an address of the memory.
def Module.dataByte (m : Module) (a : Nat) : Option U8 :=
  if m.dataOffset ≤ a then m.data.entries[a - m.dataOffset]? else none

-- Every function address in the initialiser of a variable is what the module
-- has in its data at the variable's address plus the offset of the relocation.
def Initialised (o : Options) (prog : Program) (m : Module) (index : String → Option Nat) : Prop :=
  ∀ var ∈ prog, var.emitted = true → ∀ rel ∈ var.rel, ∀ fn : Obj, rel.label = .name fn → fn.isFunction = true →
    ∃ l place v, layoutGlobals o prog = .ok l ∧ l.globalDef var.name = some place ∧ m.AddressOf index fn.name v ∧
      ∀ k < 4, m.dataByte (place.offset + rel.offset + k) = (leBytes 4 (v + BitVec.ofInt 32 rel.addend).toNat)[k]?

-- The counts say how many entries follow, and the table holds the segment.
structure Counted (m : Module) : Prop where
  types : ∃ all, readEntries m.typeCount m.typeBytes = some all
  imports : m.imports.count = m.imports.entries.length
  functions : m.functions.count = m.functions.entries.length
  elements : m.elements.count = m.elements.entries.length
  code : m.code.count = m.code.entries.length
  data : m.data.count = m.data.entries.length
  table : m.elementOffset + m.elements.entries.length ≤ m.tableSize

structure FunctionSpace (prog : Program) (m : Module) (index : String → Option Nat) : Prop where
  position : ∀ name f, index name = some f → (functionNames prog m)[f]? = some name
  known : ∀ name ∈ functionNames prog m, ∃ f, index name = some f
  start : m.start = index "_start"
  null : m.slot 0 = none
  slots : ∀ i j f, m.slot i = some f → m.slot j = some f → i = j
  apart : ∀ a b v, m.AddressOf index a v → m.AddressOf index b v → a = b

-- The k-th entry and the k-th body are those of the k-th definition.
structure Bodies (prog : Program) (m : Module) (index : String → Option Nat) : Prop where
  functions : m.functions.entries.length = (definitions prog).length
  code : m.code.entries.length = (definitions prog).length
  importTypes : ∀ entry ∈ m.imports.entries, ∃ fn ∈ prog, fn.name = "__env_" ++ entry.field ∧ m.TypeDenotes entry.typeIndex fn.var.ty
  types : ∀ (k : Nat) fn, (definitions prog)[k]? = some fn → ∃ t, m.functions.entries[k]? = some t ∧ m.TypeDenotes t fn.var.ty
  bodies : ∀ (k : Nat) fn, (definitions prog)[k]? = some fn → ∃ c body, m.code.entries[k]? = some body ∧
    genFunction c fn = .ok body ∧ Linked (m.Operand index) (stmtUses fn.body) (flowPlains body.body)

structure IndexSpaces (o : Options) (prog : Program) (m : Module) (index : String → Option Nat) : Prop where
  counted : Counted m
  space : FunctionSpace prog m index
  bodies : Bodies prog m index
  initialised : Initialised o prog m index

-- The names whose address an initialiser takes as a function's are declared
-- as functions first.
def FunctionsFirst (prog : Program) : Prop :=
  ∀ var ∈ prog, var.emitted = true → ∀ rel ∈ var.rel, ∀ fn : Obj, rel.label = .name fn → fn.isFunction = true →
    ∀ target, prog.find? (·.name == fn.name) = some target → target.isFunction = true

-- No address is converted to a type of less than its four bytes.
def AddressesWhole (prog : Program) : Prop := ∀ var ∈ prog, var.emitted = true → var.WholeAddresses

section
variable {c : Context} {o : Options} {prog parsed imports defs funcs : List Global} {marked : List String} {m : Module}
  {name : String} {l : Layout} {entries : List Bytes} {bodies : List FunctionBody}

theorem lastIndex_position {i j : Nat} (found : lastIndex name i funcs = some j) :
    i ≤ j ∧ (funcs.map Global.name)[j - i]? = some name := by
  induction funcs generalizing i with
  | nil => cases found
  | cons fn rest ih =>
    unfold lastIndex at found
    cases later : lastIndex name (i + 1) rest with
    | some k =>
      rw [later] at found
      cases found
      obtain ⟨above,at_⟩ := ih later
      have next : j - i = j - (i + 1) + 1 := by omega
      refine ⟨by omega,?_⟩
      rw [next,List.map_cons,List.getElem?_cons_succ]
      exact at_
    | none =>
      rw [later] at found
      dsimp only at found
      split at found
      · rename_i same
        cases found
        simp [same]
      · cases found

theorem lastIndex_found {i : Nat} (member : name ∈ funcs.map Global.name) : ∃ j, lastIndex name i funcs = some j := by
  induction funcs generalizing i with
  | nil => cases member
  | cons fn rest ih =>
    unfold lastIndex
    cases later : lastIndex name (i + 1) rest with
    | some k => exact ⟨k,rfl⟩
    | none =>
      rcases List.mem_cons.mp member with same | more
      · simp [same]
      · obtain ⟨j,found⟩ := ih (i := i + 1) more
        rw [later] at found
        cases found

theorem envImports_names (made : envImports marked prog = .ok imports) :
    ∀ fn ∈ imports, fn ∈ prog ∧ startsWith "__env_" fn.name = true := by
  induction prog generalizing imports with
  | nil => cases made; intro fn member; cases member
  | cons g rest ih =>
    unfold envImports at made
    split at made
    · split at made
      · rename_i env
        obtain ⟨later,one,made⟩ := bind_ok made
        cases made
        intro fn member
        rcases List.mem_cons.mp member with rfl | more
        · exact ⟨List.mem_cons_self ..,env⟩
        · exact ⟨List.mem_cons_of_mem _ (ih one fn more).1,(ih one fn more).2⟩
      · cases made
    · intro fn member
      exact ⟨List.mem_cons_of_mem _ (ih made fn member).1,(ih made fn member).2⟩

theorem env_name (env : startsWith "__env_" name = true) : "__env_" ++ String.ofList (name.toList.drop 6) = name := by
  obtain ⟨rest,whole⟩ := List.isPrefixOf_iff_prefix.mp env
  have chars : name.toList.drop 6 = rest := by rw [← whole]; rfl
  apply String.toList_inj.mp
  rw [String.toList_append,chars,← whole]
  exact congrArg ("__env_".toList ++ ·) String.toList_ofList

theorem genFunctions_bodies (made : genFunctions c defs = .ok bodies) : bodies.length = defs.length ∧
    ∀ (k : Nat) fn, defs[k]? = some fn → ∃ body, bodies[k]? = some body ∧ genFunction (functionContext c fn) fn = .ok body := by
  induction defs generalizing bodies with
  | nil => cases made; exact ⟨rfl,fun k fn found => by cases found⟩
  | cons g rest ih =>
    obtain ⟨body,one,made⟩ := bind_ok made
    obtain ⟨later,two,made⟩ := bind_ok made
    cases made
    obtain ⟨same,each⟩ := ih two
    refine ⟨by simp [same],fun k fn found => ?_⟩
    cases k with
    | zero => cases found; exact ⟨body,rfl,one⟩
    | succ k => exact each k fn found

end

-- The module of these parts, and the context its code is generated in.
def assembled (o : Options) (prog imports : List Global) (l : Layout) (bodies : List FunctionBody)
    (data : Bytes) : Module :=
  emitModule o imports (definitions prog) (typeEntries imports (definitions prog)) l bodies data

def maps (prog imports : List Global) (l : Layout) : Context :=
  moduleContext (imports ++ definitions prog) (typeEntries imports (definitions prog)) l

-- The numbering the module is built with.
def numbering (prog imports : List Global) (name : String) : Option Nat := lastIndex name 0 (imports ++ definitions prog)

-- What an accepted program went through: its imports, its layout, its bodies and its data.
structure Passed (o : Options) (prog imports : List Global) (l : Layout) (bodies : List FunctionBody)
    (data : Bytes) : Prop where
  chosen : envImports (referenced prog) prog = .ok imports
  few : (imports ++ definitions prog).length ≤ 2 ^ 30
  functions : ∀ fn ∈ imports ++ definitions prog, fn.var.ty.isFunc = true
  placed : layoutGlobals o prog = .ok l
  generated : genFunctions (maps prog imports l) (definitions prog) = .ok bodies
  written : emitData (maps prog imports l) l prog = .ok data

section
variable {o : Options} {asm name : String} {parsed prog imports : List Global} {l : Layout} {bodies : List FunctionBody}
  {data : Bytes} {m : Module}

theorem codegen_parts (made : codegen o asm parsed = .ok m) :
    ∃ imports l bodies data, Passed o parsed.reverse imports l bodies data ∧
      m = assembled o parsed.reverse imports l bodies data := by
  unfold codegen at made
  split at made
  · cases made
  obtain ⟨imports,one,made⟩ := bind_ok made
  dsimp only at made
  split at made
  · cases made
  rename_i few
  split at made
  · cases made
  rename_i functions
  obtain ⟨l,two,made⟩ := bind_ok made
  obtain ⟨bodies,three,made⟩ := bind_ok made
  split at made
  · cases made
  obtain ⟨data,four,made⟩ := bind_ok made
  cases made
  refine ⟨imports,l,bodies,data,⟨one,Nat.not_lt.mp few,fun fn member => ?_,two,three,four⟩,rfl⟩
  simp only [List.any_eq_true,not_exists,not_and,Bool.not_eq_true',Bool.not_eq_false] at functions
  exact functions fn member

theorem assembled_slot (i f : Nat) :
    (assembled o prog imports l bodies data).slot i = some f ↔ i = f + 1 ∧ f < (imports ++ definitions prog).length := by
  have unfolded : (assembled o prog imports l bodies data).slot i =
      if 1 ≤ i then (List.range (imports ++ definitions prog).length)[i - 1]? else none := rfl
  rw [unfolded]
  split
  · rename_i positive
    rw [List.getElem?_eq_some_iff]
    constructor
    · rintro ⟨inside,same⟩
      rw [List.getElem_range] at same
      rw [List.length_range] at inside
      omega
    · rintro ⟨rfl,inside⟩
      exact ⟨by simpa using inside,by simp⟩
  · constructor
    · intro impossible
      cases impossible
    · intro both
      omega

section
variable (passed : Passed o prog imports l bodies data)
include passed

theorem passed_names :
    functionNames prog (assembled o prog imports l bodies data) = (imports ++ definitions prog).map Global.name := by
  unfold functionNames assembled emitModule
  rw [List.map_append,List.map_map]
  congr 1
  apply List.map_congr_left
  intro fn member
  exact env_name (envImports_names passed.chosen fn member).2

theorem numbering_position {f : Nat} (known : numbering prog imports name = some f) :
    (functionNames prog (assembled o prog imports l bodies data))[f]? = some name ∧ f < (imports ++ definitions prog).length := by
  have at_ := (lastIndex_position known).2
  rw [Nat.sub_zero] at at_
  refine ⟨(passed_names passed).symm ▸ at_,?_⟩
  obtain ⟨inside,_⟩ := List.getElem?_eq_some_iff.mp at_
  simpa using inside

-- The address code and data have for a function.
theorem numbering_address {f : Nat} (known : numbering prog imports name = some f) :
    (assembled o prog imports l bodies data).AddressOf (numbering prog imports) name (BitVec.ofInt 32 ((f + 1 : Nat) : Int)) := by
  have inside := (numbering_position passed known).2
  have few := passed.few
  have value : (BitVec.ofInt 32 ((f + 1 : Nat) : Int)).toNat = f + 1 := by
    rw [BitVec.ofInt_natCast,BitVec.toNat_ofNat]
    omega
  refine ⟨f,known,fun zero => ?_,(assembled_slot _ _).mpr ⟨value,inside⟩⟩
  rw [zero] at value
  cases value

theorem generated_links (k : Nat) (fn : Global) (at_ : (definitions prog)[k]? = some fn) :
    ∃ body, bodies[k]? = some body ∧ genFunction (functionContext (maps prog imports l) fn) fn = .ok body ∧
      Linked (Numbers (functionContext (maps prog imports l) fn)) (stmtUses fn.body) (flowPlains body.body) := by
  obtain ⟨body,found,made⟩ := (genFunctions_bodies passed.generated).2 k fn at_
  exact ⟨body,found,made,function_links made⟩

theorem requests_functions : ∀ ty ∈ sigRequests imports (definitions prog), ty.isFunc = true := by
  intro ty member
  unfold sigRequests at member
  rcases List.mem_append.mp member with declared | indirect
  · rw [← List.map_append] at declared
    obtain ⟨fn,present,rfl⟩ := List.mem_map.mp declared
    exact passed.functions fn present
  · obtain ⟨fn,present,asked⟩ := List.mem_flatMap.mp indirect
    obtain ⟨k,at_⟩ := List.mem_iff_getElem?.mp present
    obtain ⟨body,_,_,linked⟩ := generated_links passed k fn at_
    obtain ⟨u,used,same⟩ := List.mem_filterMap.mp asked
    cases u with
    | indirect ty' =>
      cases same
      obtain ⟨p,function,_⟩ := linked_uses linked _ used
      exact function
    | _ => cases same

theorem types_read : ∃ all, readEntries (assembled o prog imports l bodies data).typeCount
    (assembled o prog imports l bodies data).typeBytes = some all := by
  obtain ⟨all,read,_⟩ := typeEntries_denote (requests_functions passed)
  exact ⟨all,read⟩

theorem types_denote {ty : Ty} (asked : ty ∈ sigRequests imports (definitions prog)) :
    (assembled o prog imports l bodies data).TypeDenotes ((typeEntries imports (definitions prog)).idxOf (typeEntry ty)) ty := by
  obtain ⟨all,read,each⟩ := typeEntries_denote (requests_functions passed)
  exact ⟨all,read,each ty asked⟩

theorem operands (k : Nat) (fn : Global) (at_ : (definitions prog)[k]? = some fn) :
    ∃ c body, bodies[k]? = some body ∧ genFunction c fn = .ok body ∧
      Linked ((assembled o prog imports l bodies data).Operand (numbering prog imports)) (stmtUses fn.body)
        (flowPlains body.body) := by
  obtain ⟨body,found,made,linked⟩ := generated_links passed k fn at_
  refine ⟨_,body,found,made,linked_mono ?_ linked⟩
  intro u used p related
  cases u with
  | call name => exact related
  | indirect ty =>
    have asked : ty ∈ sigRequests imports (definitions prog) := by
      apply List.mem_append_right
      refine List.mem_flatMap.mpr ⟨fn,List.mem_of_getElem? at_,?_⟩
      exact List.mem_filterMap.mpr ⟨.indirect ty,used,rfl⟩
    exact ⟨_,related.2,types_denote passed asked⟩
  | address name =>
    obtain ⟨f,known,rfl⟩ := related
    exact ⟨_,rfl,numbering_address passed known⟩

theorem space_agrees : FunctionSpace prog (assembled o prog imports l bodies data) (numbering prog imports) where
  position name f known := (numbering_position passed known).1
  known name member := lastIndex_found (passed_names passed ▸ member)
  start := rfl
  null := rfl
  slots i j f first second := by
    have one := ((assembled_slot i f).mp first).1
    have two := ((assembled_slot j f).mp second).1
    rw [one,two]
  apart a b v first second := by
    obtain ⟨f,known,_,slot⟩ := first
    obtain ⟨f',known',_,slot'⟩ := second
    cases slot.symm.trans slot'
    have one := (numbering_position passed known).1
    have two := (numbering_position passed known').1
    exact Option.some.inj (one.symm.trans two)

theorem counted : Counted (assembled o prog imports l bodies data) where
  types := types_read passed
  imports := by simp [assembled,emitModule]
  functions := by simp [assembled,emitModule]
  elements := by simp [assembled,emitModule]
  code := by
    have same := (genFunctions_bodies passed.generated).1
    simp [assembled,emitModule,same]
  data := by
    obtain ⟨writes,_,made⟩ := bind_ok passed.written
    cases made
    exact ((image_length dataBase).trans List.length_replicate).symm
  table := by
    simp [assembled,emitModule]
    omega

theorem bodies_agree : Bodies prog (assembled o prog imports l bodies data) (numbering prog imports) where
  functions := by simp [assembled,emitModule]
  code := (genFunctions_bodies passed.generated).1
  importTypes entry member := by
    obtain ⟨fn,present,rfl⟩ := List.mem_map.mp member
    obtain ⟨declared,env⟩ := envImports_names passed.chosen fn present
    refine ⟨fn,declared,(env_name env).symm,types_denote passed ?_⟩
    simp only [sigRequests,List.mem_append,List.mem_map]
    exact .inl (.inl ⟨fn,present,rfl⟩)
  types k fn at_ := by
    refine ⟨_,?_,@types_denote _ _ _ _ _ _ passed fn.var.ty ?_⟩
    · simp [assembled,emitModule,at_]
    · simp only [sigRequests,List.mem_append,List.mem_map]
      exact .inl (.inr ⟨fn,List.mem_of_getElem? at_,rfl⟩)
  bodies := operands passed

-- A relocation made from a function is resolved by name, to the first thing
-- the program declares under it.
theorem initialised (first : FunctionsFirst prog) (whole : AddressesWhole prog) :
    Initialised o prog (assembled o prog imports l bodies data) (numbering prog imports) := by
  intro var member emitted rel present fn named function
  obtain ⟨j,at_⟩ := List.mem_iff_getElem?.mp member
  obtain ⟨place,target,addr,found,above,resolved,known,bytes⟩ :=
    address_written passed.written passed.placed at_ emitted (whole var member emitted) present
  have text : rel.label.text = fn.name := by rw [named]; rfl
  rw [text] at resolved
  have isFunction : target.var.isFunction = true := first var member emitted rel present fn named function target resolved
  have chosen := List.find?_some resolved
  have name : target.name = fn.name := beq_iff_eq.mp chosen
  unfold globalAddr at known
  rw [if_pos isFunction] at known
  obtain ⟨f,numbered,same⟩ := bind_ok known
  cases same
  have index : numbering prog imports fn.name = some f := by
    unfold funcIdx at numbered
    split at numbered
    · rename_i i position
      cases numbered
      rw [← name]
      exact position
    · cases numbered
  refine ⟨l,place,_,passed.placed,found,numbering_address passed index,?_⟩
  intro k within
  have inside : dataBase ≤ place.offset + rel.offset + k := by omega
  rw [← BitVec.ofInt_add]
  exact (if_pos inside).trans (bytes k within)

end

end

-- The numbers of functions and types agree over all the sections.
def AgreeingIndices (o : Options) (parsed : Program) (m : Module) : Prop := ∃ index, IndexSpaces o parsed.reverse m index

theorem index_spaces (o : Options) (asm : String) (parsed : Program) (m : Module) (made : codegen o asm parsed = .ok m)
    (first : FunctionsFirst parsed.reverse) (whole : AddressesWhole parsed.reverse) : AgreeingIndices o parsed m := by
  obtain ⟨imports,l,bodies,data,passed,rfl⟩ := codegen_parts made
  exact ⟨numbering parsed.reverse imports,counted passed,space_agrees passed,bodies_agree passed,initialised passed first whole⟩

namespace Controls

def intVoid : Ty := .func (.int false) [] false

-- A function definition adds the two strings that __func__ and __FUNCTION__
-- stand for to the globals, and one local to its own.
def nameString (id name : String) : Global :=
  ⟨⟨id,.array (.char false) (name.length + 1),false,0,false,false⟩,1,true,
    some (name.toList.map (fun ch => BitVec.ofNat 8 ch.toNat) ++ [0]),[],[],[],none,.block []⟩

def allocaSize : Local := ⟨⟨"__alloca_size__",.ptr (.char false),true,0,false,false⟩,4⟩

def function (name : String) (body : Stmt) : Global :=
  ⟨⟨name,intVoid,false,0,true,false⟩,1,true,none,[],[],[allocaSize],none,body⟩

def variable_ (name : String) (ty : Ty) (bytes : Bytes) (rel : List Relocation) : Global :=
  ⟨⟨name,ty,false,0,false,false⟩,4,true,some bytes,rel,[],[],none,.block []⟩

def returned (n : Node) : Stmt := .block [.ret (some (n.newCast (.int false)))]

def one : Node := .num (some (.int false)) ⟨1,0,0⟩

-- int f(void) { return 1; }  int (*p)(void) = f;  int g(void) { return f() + p(); }
def f : Global := function "f" (returned one)

def p : Global := variable_ "p" (.ptr intVoid) [0,0,0,0] [⟨0,.name f.var,0⟩]

def g : Global := function "g" (returned (.binary .add (some (.int false))
  ((Node.funcall (some (.int false)) intVoid (.var (some intVoid) f.var) [] none).newCast (.int false))
  ((Node.funcall (some (.int false)) intVoid (.var (some (.ptr intVoid)) p.var) [] none).newCast (.int false))))

def throughPointer : Program :=
  [nameString ".L..3" "g",nameString ".L..2" "g",g,p,nameString ".L..1" "f",nameString ".L..0" "f",f]

-- int h = 7;  int h(void) { return 1; }  int (*q)(void) = h;
def hVariable : Global := variable_ "h" (.int false) [7,0,0,0] []

def hFunction : Global := function "h" (returned one)

def q : Global := variable_ "q" (.ptr intVoid) [0,0,0,0] [⟨0,.name hFunction.var,0⟩]

def sharedName : Program := [q,nameString ".L..1" "h",nameString ".L..0" "h",hFunction,hVariable]

def options : Options := ⟨2 ^ 20,256⟩

end Controls

open Controls in
theorem index_spaces_indirect : ∃ m, codegen options "" throughPointer = .ok m ∧ AgreeingIndices options throughPointer m := by
  have accepted : (codegen options "" throughPointer).toOption.isSome = true := by decide +kernel
  cases made : codegen options "" throughPointer with
  | error e => rw [made] at accepted; cases accepted
  | ok m =>
    -- `p` is the one variable with an address.
    have only : ∀ var ∈ throughPointer.reverse, var.rel = [] ∨ var = p := by
      intro var member
      simp only [throughPointer,List.reverse_cons,List.reverse_nil,List.nil_append,List.cons_append,List.mem_cons,
        List.not_mem_nil,or_false] at member
      rcases member with rfl | rfl | rfl | rfl | rfl | rfl | rfl
      · exact .inl rfl
      · exact .inl rfl
      · exact .inl rfl
      · exact .inr rfl
      · exact .inl rfl
      · exact .inl rfl
      · exact .inl rfl
    refine ⟨m,rfl,index_spaces options "" throughPointer m made ?_ ?_⟩
    · intro var member _ rel present fn named _ target found
      rcases only var member with none | rfl
      · rw [none] at present
        cases present
      · cases List.mem_singleton.mp present
        cases named
        cases found
        rfl
    · intro var member _
      rcases only var member with none | rfl
      · refine ⟨none ▸ .nil,fun rel present => ?_⟩
        rw [none] at present
        cases present
      · refine ⟨List.pairwise_singleton ..,fun rel present => ?_⟩
        cases List.mem_singleton.mp present
        decide

-- The initialiser of `q` gets the address of the variable `h`.
open Controls in
theorem index_spaces_fails : ∃ m, codegen options "" sharedName = .ok m ∧ ¬AgreeingIndices options sharedName m := by
  have data : (codegen options "" sharedName).toOption.map (fun m => (m.dataOffset,m.data.entries)) =
      some (1024,[7,0,0,0,104,0,104,0,0,4,0,0]) := by decide +kernel
  have names : (codegen options "" sharedName).toOption.map
      (fun m => (functionNames sharedName.reverse m,m.elementOffset,m.elements.entries)) = some (["h"],1,[0]) := by
    decide +kernel
  have layout : (layoutGlobals options sharedName.reverse).toOption.map (fun l => l.globalDef "q") =
      some (some ⟨"q",4,1032⟩) := by decide +kernel
  cases made : codegen options "" sharedName with
  | error e => rw [made] at data; cases data
  | ok m =>
    refine ⟨m,rfl,?_⟩
    rintro ⟨index,agreed⟩
    rw [made] at data names
    simp only [Except.toOption,Option.map_some,Option.some.injEq,Prod.mk.injEq] at data names
    obtain ⟨l,place,v,placed,found,⟨i,known,_,slot⟩,written⟩ :=
      agreed.initialised q (by simp [sharedName]) rfl ⟨0,.name hFunction.var,0⟩ (List.mem_singleton.mpr rfl) hFunction.var
        rfl rfl
    rw [placed] at layout
    have at_ : l.globalDef "q" = some ⟨"q",4,1032⟩ := Option.some.inj layout
    cases found.symm.trans at_
    have position := agreed.space.position _ _ known
    rw [names.1] at position
    obtain ⟨inside,_⟩ := List.getElem?_eq_some_iff.mp position
    have zero : i = 0 := by simpa using inside
    subst zero
    unfold Module.slot at slot
    rw [names.2.1,names.2.2] at slot
    split at slot
    · obtain ⟨low,_⟩ := List.getElem?_eq_some_iff.mp slot
      have one : v.toNat = 1 := by
        simp only [List.length_singleton] at low
        omega
      have value : v = 1 := BitVec.eq_of_toNat_eq one
      subst value
      have second := written 1 (by decide)
      unfold Module.dataByte at second
      rw [data.1,data.2] at second
      revert second
      decide
    · cases slot

end SandboxStack.Cc
