import SandboxStack.Alignment
import SandboxStack.AssemblerSections

namespace SandboxStack.StaticLayout
open Asm (int32)

-- An object of the program as layout_globals sees it: ty->size and align are ints.
structure Var where
  name : String
  isFunction : Bool
  isDefinition : Bool
  initialised : Bool
  size : BitVec 32
  align : BitVec 32

-- -mstack and -mmaxpages as parse_num accepts them.
structure Options where
  stackSize : Int
  maxPages : Int
  stack : 16 ≤ stackSize ∧ stackSize ≤ 2 ^ 30
  pages : 1 ≤ maxPages ∧ maxPages ≤ 65536

-- How int computations go: on the machine, or without bounds.
structure Arithmetic where
  toInt : Int → Int
  alignTo : Int → Int → Int

def machine : Arithmetic := ⟨int32,Asm.alignTo⟩
def unbounded : Arithmetic := ⟨id,fun n align => (n + align - 1).tdiv align * align⟩

-- What was computed on the way, each value with the width of its type, and the result.
structure Traced (α : Type) where
  values : List (Nat × Int)
  result : Except String α

def Traced.after (values : List (Nat × Int)) {α : Type} (x : Traced α) : Traced α := ⟨values ++ x.values,x.result⟩

def Traced.bind {α β : Type} (x : Traced α) (f : α → Traced β) : Traced β :=
  match x.result with
  | .error e => ⟨x.values,.error e⟩
  | .ok a => (f a).after x.values

-- Does a value fit its type?
def Fits (v : Nat × Int) : Prop := -2 ^ (v.1 - 1) ≤ v.2 ∧ v.2 < 2 ^ (v.1 - 1)

-- The steps of align_to, with the conversion of its argument.
def alignSteps (n align : Int) : List (Nat × Int) :=
  [(32,n),(32,n + align),(32,n + align - 1),(32,(n + align - 1).tdiv align * align)]

structure Placed where
  name : String
  initialised : Bool
  size : Int
  align : Int
  offset : Int
  deriving DecidableEq

structure State where
  addr : Int
  placed : List Placed

def effectiveAlign (align : Int) : Int := if align < 1 then 1 else align

-- A global at the next address.
def place (A : Arithmetic) (var : Var) (s : State) : Traced State :=
  let align := effectiveAlign var.align.toInt
  let offset := A.alignTo (A.toInt s.addr) align
  let addr := offset + var.size.toInt
  ⟨alignSteps s.addr align ++ [(64,addr)],
    if addr > 0x7fffffff then .error "globals do not fit in 2 GiB"
    else .ok ⟨addr,s.placed ++ [⟨var.name,var.initialised,var.size.toInt,var.align.toInt,offset⟩]⟩⟩

def visit (A : Arithmetic) (initialised : Bool) (var : Var) (s : State) : Traced State :=
  if var.isFunction || !var.isDefinition || var.initialised != initialised then ⟨[],.ok s⟩
  else if s.placed.any (·.name == var.name) then
    ⟨[],if var.initialised then .error ("redefinition of " ++ var.name) else .ok s⟩
  else place A var s

-- One pass of layout_globals.
def pass (A : Arithmetic) (initialised : Bool) : List Var → State → Traced State
  | [],s => ⟨[],.ok s⟩
  | var :: rest,s => (visit A initialised var s).bind (pass A initialised rest)

structure Layout where
  placed : List Placed
  dataEnd : Int
  stackBottom : Int
  stackTop : Int
  heapBase : Int
  minPages : Int
  deriving DecidableEq

def dataBase : Int := 1024

def noRoom (data stack pages : Int) : String :=
  "data (" ++ toString data ++ " bytes) plus stack (" ++ toString stack ++ " bytes) do not fit in " ++ toString pages ++
    " pages"

def tooManyPages (pages most : Int) : String :=
  "initial memory (" ++ toString pages ++ " pages) exceeds -mmaxpages=" ++ toString most

-- The end of layout_globals, and what codegen computes for the memory section.
def finish (A : Arithmetic) (o : Options) (dataEnd : Int) (s : State) : Traced Layout :=
  let stackBottom := A.alignTo (A.toInt s.addr) 16
  let stack := A.alignTo (A.toInt o.stackSize) 16
  let top := stackBottom + stack
  let values := alignSteps s.addr 16 ++ alignSteps o.stackSize 16 ++ [(64,top),(64,top + 65535),(64,o.maxPages * 65536)]
  if top + 65535 > o.maxPages * 65536 ∨ top > 0x7fffffff then
    ⟨values,.error (noRoom (A.toInt s.addr) o.stackSize o.maxPages)⟩
  else
    let pages := (A.toInt (A.toInt top + 65535)).tdiv 65536
    ⟨values ++ [(32,top),(32,top + 65535)],
      if pages > o.maxPages then .error (tooManyPages pages o.maxPages)
      else .ok ⟨s.placed,A.toInt dataEnd,stackBottom,A.toInt top,A.toInt top,pages⟩⟩

def layoutGlobals (A : Arithmetic) (o : Options) (prog : List Var) : Traced Layout :=
  (pass A true prog ⟨dataBase,[]⟩).bind fun s =>
    ((pass A false prog s).bind (finish A o s.addr)).after [(32,s.addr)]

-- What the layout has to be.
structure Sound (o : Options) (prog : List Var) (l : Layout) : Prop where
  defined : ∀ var ∈ prog, var.isFunction = false → var.isDefinition = true → ∃ p ∈ l.placed, p.name = var.name
  aligned : ∀ p ∈ l.placed, p.align ∣ p.offset
  inside : ∀ p ∈ l.placed, dataBase ≤ p.offset ∧ p.offset < l.stackBottom
  storage : ∀ p ∈ l.placed, 0 ≤ p.size ∧ p.offset + p.size ≤ l.stackBottom
  disjoint : l.placed.Pairwise fun p q => p.offset + p.size ≤ q.offset ∨ q.offset + q.size ≤ p.offset
  data : ∀ p ∈ l.placed, p.initialised = true → p.offset + p.size ≤ l.dataEnd
  stack : l.stackBottom + o.stackSize ≤ l.stackTop
  heap : l.stackTop = l.heapBase ∧ l.heapBase ≤ o.maxPages * 65536

-- What is wanted of a run: nothing overflowed, and an error or a sound layout.
def Holds (o : Options) (prog : List Var) (run : Traced Layout) : Prop :=
  (∀ v ∈ run.values, Fits v) ∧ ∀ l, run.result = .ok l → Sound o prog l

-- On unbounded integers: no sum that the code forms leaves its type, and where
-- there is no error every global has a size, a positive alignment or an address
-- that is a multiple anyway, and is not an empty one right below the stack.
def Roomy (o : Options) (prog : List Var) : Prop :=
  (∀ v ∈ (layoutGlobals unbounded o prog).values, Fits v) ∧
  ∀ l, (layoutGlobals unbounded o prog).result = .ok l → ∀ p ∈ l.placed,
    0 ≤ p.size ∧ (p.align < 1 → p.align ∣ p.offset) ∧ (p.size = 0 → p.offset < l.stackBottom)

section
variable {o : Options} {prog : List Var} {α β : Type}

-- Two runs go the same way, or in both something does not fit.
def Alike (x y : Traced α) : Prop :=
  x = y ∨ ((∃ v ∈ x.values, ¬Fits v) ∧ ∃ v ∈ y.values, ¬Fits v)

theorem bind_values {x : Traced α} {f : α → Traced β} {v : Nat × Int} (member : v ∈ x.values) : v ∈ (x.bind f).values := by
  unfold Traced.bind
  cases x.result with
  | error e => exact member
  | ok a => exact List.mem_append_left _ member

theorem Alike.after {values : List (Nat × Int)} {x y : Traced α} (both : Alike x y) :
    Alike (x.after values) (y.after values) := by
  rcases both with rfl | ⟨⟨v,one,wide⟩,w,two,long⟩
  · exact .inl rfl
  · exact .inr ⟨⟨v,List.mem_append_right _ one,wide⟩,w,List.mem_append_right _ two,long⟩

theorem Alike.bind {x y : Traced α} {f g : α → Traced β} (first : Alike x y) (rest : ∀ a, Alike (f a) (g a)) :
    Alike (x.bind f) (y.bind g) := by
  rcases first with rfl | ⟨⟨v,one,wide⟩,w,two,long⟩
  · unfold Traced.bind
    cases x.result with
    | error e => exact .inl rfl
    | ok a => exact (rest a).after
  · exact .inr ⟨⟨v,bind_values one,wide⟩,w,bind_values two,long⟩

theorem fits_int32 {x : Int} (fits : Fits (32,x)) : int32 x = x := by
  unfold Fits at fits
  unfold int32
  simp only [Nat.add_one_sub_one] at fits
  omega

theorem alignTo_alike {n align : Int} (fits : ∀ v ∈ alignSteps n align, Fits v) :
    machine.alignTo (machine.toInt n) align = unbounded.alignTo (unbounded.toInt n) align := by
  have one := fits_int32 (fits (32,n) (by simp [alignSteps]))
  have two := fits_int32 (fits (32,n + align) (by simp [alignSteps]))
  have three := fits_int32 (fits (32,n + align - 1) (by simp [alignSteps]))
  have four := fits_int32 (fits (32,(n + align - 1).tdiv align * align) (by simp [alignSteps]))
  simp only [machine,unbounded,Asm.alignTo,one,two,three,four,id]

theorem place_alike (var : Var) (s : State) : Alike (place machine var s) (place unbounded var s) := by
  by_cases fits : ∀ v ∈ alignSteps s.addr (effectiveAlign var.align.toInt), Fits v
  · refine .inl ?_
    unfold place
    simp only [alignTo_alike fits]
  · obtain ⟨v,member,wide⟩ : ∃ v ∈ alignSteps s.addr (effectiveAlign var.align.toInt), ¬Fits v := by
      simpa using fits
    exact .inr ⟨⟨v,List.mem_append_left _ member,wide⟩,v,List.mem_append_left _ member,wide⟩

theorem pass_alike (initialised : Bool) (s : State) : Alike (pass machine initialised prog s) (pass unbounded initialised prog s) := by
  induction prog generalizing s with
  | nil => exact .inl rfl
  | cons var rest ih =>
    refine Alike.bind ?_ ih
    unfold visit
    split
    · exact .inl rfl
    · split
      · exact .inl rfl
      · exact place_alike var s

theorem finish_values {A : Arithmetic} {dataEnd : Int} {s : State} {v : Nat × Int}
    (member : v ∈ alignSteps s.addr 16 ++ alignSteps o.stackSize 16) : v ∈ (finish A o dataEnd s).values := by
  unfold finish
  dsimp only
  split
  · exact List.mem_append_left _ member
  · exact List.mem_append_left _ (List.mem_append_left _ member)

theorem finish_alike (dataEnd : Int) (fits : Fits (32,dataEnd)) (s : State) :
    Alike (finish machine o dataEnd s) (finish unbounded o dataEnd s) := by
  by_cases steps : ∀ v ∈ alignSteps s.addr 16 ++ alignSteps o.stackSize 16, Fits v
  · have bottom := alignTo_alike fun v member => steps v (List.mem_append_left _ member)
    have stack := alignTo_alike fun v member => steps v (List.mem_append_right _ member)
    have dataEnd_kept : machine.toInt dataEnd = unbounded.toInt dataEnd := fits_int32 fits
    have addr_kept : machine.toInt s.addr = unbounded.toInt s.addr := fits_int32 (steps (32,s.addr) (by simp [alignSteps]))
    unfold finish
    simp only [bottom,stack,dataEnd_kept]
    generalize unbounded.alignTo (unbounded.toInt s.addr) 16 = stackBottom
    generalize unbounded.alignTo (unbounded.toInt o.stackSize) 16 = size
    by_cases beyond : stackBottom + size + 65535 > o.maxPages * 65536 ∨ stackBottom + size > 0x7fffffff
    · simp only [if_pos beyond,addr_kept]
      exact .inl rfl
    · simp only [if_neg beyond]
      by_cases top : Fits (32,stackBottom + size)
      · by_cases sum : Fits (32,stackBottom + size + 65535)
        · have top_kept : machine.toInt (stackBottom + size) = unbounded.toInt (stackBottom + size) := fits_int32 top
          have sum_kept : machine.toInt (unbounded.toInt (stackBottom + size) + 65535) =
              unbounded.toInt (unbounded.toInt (stackBottom + size) + 65535) := fits_int32 sum
          rw [top_kept,sum_kept]
          exact .inl rfl
        · exact .inr ⟨⟨_,List.mem_append_right _ (.tail _ (.head _)),sum⟩,_,List.mem_append_right _ (.tail _ (.head _)),sum⟩
      · exact .inr ⟨⟨_,List.mem_append_right _ (.head _),top⟩,_,List.mem_append_right _ (.head _),top⟩
  · obtain ⟨v,member,wide⟩ : ∃ v ∈ alignSteps s.addr 16 ++ alignSteps o.stackSize 16, ¬Fits v := by
      simpa only [not_forall,exists_prop] using steps
    exact .inr ⟨⟨v,finish_values member,wide⟩,v,finish_values member,wide⟩

theorem layout_alike : Alike (layoutGlobals machine o prog) (layoutGlobals unbounded o prog) := by
  refine Alike.bind (pass_alike true _) fun s => ?_
  by_cases fits : Fits (32,s.addr)
  · exact (Alike.bind (pass_alike false s) (finish_alike s.addr fits)).after
  · exact .inr ⟨⟨_,List.mem_append_left _ (.head _),fits⟩,_,List.mem_append_left _ (.head _),fits⟩

end

theorem unbounded_align {n align : Int} (nonneg : 0 ≤ n) (positive : 1 ≤ align) :
    n ≤ unbounded.alignTo (unbounded.toInt n) align ∧ align ∣ unbounded.alignTo (unbounded.toInt n) align := by
  have whole : 0 ≤ n + align - 1 := by omega
  have split := Int.mul_ediv_add_emod (n + align - 1) align
  have rest := Int.emod_lt_of_pos (n + align - 1) (by omega : 0 < align)
  simp only [unbounded,id,Int.tdiv_eq_ediv_of_nonneg whole]
  rw [Int.mul_comm]
  exact ⟨by omega,Int.dvd_mul_right _ _⟩

theorem bind_ok {α β : Type} {x : Traced α} {f : α → Traced β} {b : β} (made : (x.bind f).result = .ok b) :
    ∃ a, x.result = .ok a ∧ (f a).result = .ok b := by
  unfold Traced.bind at made
  cases found : x.result with
  | error e =>
    rw [found] at made
    cases made
  | ok a =>
    rw [found] at made
    exact ⟨a,rfl,made⟩

-- The placed globals lie one after another below the next address.
structure Ordered (s : State) : Prop where
  low : dataBase ≤ s.addr
  ends : ∀ p ∈ s.placed, dataBase ≤ p.offset ∧ p.offset + p.size ≤ s.addr
  aligned : ∀ p ∈ s.placed, 1 ≤ p.align → p.align ∣ p.offset
  disjoint : s.placed.Pairwise fun p q => p.offset + p.size ≤ q.offset ∨ q.offset + q.size ≤ p.offset

-- What a visit adds: nothing, or the global at the next multiple of its alignment.
theorem visit_parts {var : Var} {initialised : Bool} {s s' : State} (visited : (visit unbounded initialised var s).result = .ok s') :
    (s' = s ∧ (var.isFunction = false → var.isDefinition = true → var.initialised = initialised →
      ∃ p ∈ s.placed, p.name = var.name)) ∨
    ∃ p, s'.placed = s.placed ++ [p] ∧ p.name = var.name ∧ p.initialised = initialised ∧ s'.addr = p.offset + p.size ∧
      p.offset = unbounded.alignTo (unbounded.toInt s.addr) (effectiveAlign p.align) := by
  unfold visit at visited
  split at visited
  · rename_i skipped
    cases visited
    refine .inl ⟨rfl,fun object definition same => ?_⟩
    simp [object,definition,same] at skipped
  · split at visited
    · rename_i known
      split at visited
      · cases visited
      · cases visited
        refine .inl ⟨rfl,fun _ _ _ => ?_⟩
        obtain ⟨p,member,same⟩ := List.any_eq_true.mp known
        exact ⟨p,member,of_decide_eq_true same⟩
    · rename_i own _
      simp only [place] at visited
      split at visited
      · cases visited
      · cases visited
        refine .inr ⟨_,rfl,rfl,?_,rfl,rfl⟩
        simp at own
        simp [own]

theorem visit_ordered {var : Var} {initialised : Bool} {s s' : State} (ordered : Ordered s)
    (visited : (visit unbounded initialised var s).result = .ok s') (sized : ∀ p ∈ s'.placed, 0 ≤ p.size) :
    Ordered s' ∧ s.addr ≤ s'.addr := by
  have low := ordered.low
  rcases visit_parts visited with ⟨rfl,_⟩ | ⟨p,placed,_,_,next,offset⟩
  · exact ⟨ordered,Int.le_refl _⟩
  · have positive : 1 ≤ effectiveAlign p.align := by
      unfold effectiveAlign
      split <;> omega
    obtain ⟨above,multiple⟩ := unbounded_align (by unfold dataBase at low; omega : 0 ≤ s.addr) positive
    rw [← offset] at above multiple
    have size := sized p (by simp [placed])
    refine ⟨⟨by omega,?_,?_,?_⟩,by omega⟩
    · intro q member
      rw [placed] at member
      rcases List.mem_append.mp member with old | new
      · have before := ordered.ends q old
        omega
      · cases List.mem_singleton.mp new
        omega
    · intro q member
      rw [placed] at member
      rcases List.mem_append.mp member with old | new
      · exact ordered.aligned q old
      · cases List.mem_singleton.mp new
        intro least
        have kept : effectiveAlign p.align = p.align := if_neg (by omega)
        exact kept ▸ multiple
    · rw [placed]
      refine List.pairwise_append.mpr ⟨ordered.disjoint,List.pairwise_singleton _ _,fun q old r new => ?_⟩
      cases List.mem_singleton.mp new
      have before := ordered.ends q old
      exact .inl (by omega)

-- A whole pass: it adds globals of its kind and visits all of them.
structure Passed (initialised : Bool) (prog : List Var) (s s' : State) : Prop where
  added : ∃ new, s'.placed = s.placed ++ new ∧ ∀ p ∈ new, p.initialised = initialised
  defined : ∀ var ∈ prog, var.isFunction = false → var.isDefinition = true → var.initialised = initialised →
    ∃ p ∈ s'.placed, p.name = var.name
  ordered : Ordered s → (∀ p ∈ s'.placed, 0 ≤ p.size) → Ordered s' ∧ s.addr ≤ s'.addr

theorem pass_passed {initialised : Bool} {prog : List Var} {s s' : State}
    (made : (pass unbounded initialised prog s).result = .ok s') : Passed initialised prog s s' := by
  induction prog generalizing s with
  | nil =>
    cases made
    refine ⟨⟨[],by simp,by simp⟩,?_,fun ordered _ => ⟨ordered,Int.le_refl _⟩⟩
    intro var member
    cases member
  | cons var rest ih =>
    obtain ⟨middle,visited,made⟩ := bind_ok made
    have later := ih made
    obtain ⟨new,placed,kinds⟩ := later.added
    have grown : ∀ p ∈ middle.placed, p ∈ s'.placed := fun p member => placed ▸ List.mem_append_left _ member
    refine ⟨?_,?_,?_⟩
    · rcases visit_parts visited with ⟨rfl,_⟩ | ⟨p,one,_,kind,_,_⟩
      · exact ⟨new,placed,kinds⟩
      · refine ⟨p :: new,by rw [placed,one,List.append_assoc]; rfl,fun q member => ?_⟩
        rcases List.mem_cons.mp member with rfl | old
        · exact kind
        · exact kinds q old
    · intro w member object definition same
      rcases List.mem_cons.mp member with rfl | old
      · rcases visit_parts visited with ⟨rfl,known⟩ | ⟨p,one,name,_,_,_⟩
        · obtain ⟨p,held,found⟩ := known object definition same
          exact ⟨p,grown p held,found⟩
        · exact ⟨p,grown p (by simp [one]),name⟩
      · exact later.defined w old object definition same
    · intro ordered sized
      obtain ⟨first,up⟩ := visit_ordered ordered visited fun p member => sized p (grown p member)
      obtain ⟨last,further⟩ := later.ordered first sized
      exact ⟨last,Int.le_trans up further⟩

theorem finish_parts {o : Options} {dataEnd : Int} {s : State} {l : Layout}
    (made : (finish unbounded o dataEnd s).result = .ok l) :
    l.placed = s.placed ∧ l.dataEnd = dataEnd ∧ l.stackBottom = unbounded.alignTo (unbounded.toInt s.addr) 16 ∧
      l.stackTop = l.stackBottom + unbounded.alignTo (unbounded.toInt o.stackSize) 16 ∧ l.heapBase = l.stackTop ∧
      l.heapBase + 65535 ≤ o.maxPages * 65536 := by
  unfold finish at made
  dsimp only at made
  split at made
  · cases made
  · rename_i within
    split at made
    · cases made
    · cases made
      refine ⟨rfl,rfl,rfl,rfl,rfl,?_⟩
      show _ + 65535 ≤ _
      simp only [unbounded,id] at within ⊢
      omega

theorem unbounded_sound {o : Options} {prog : List Var} {l : Layout} (made : (layoutGlobals unbounded o prog).result = .ok l)
    (roomy : ∀ p ∈ l.placed, 0 ≤ p.size ∧ (p.align < 1 → p.align ∣ p.offset) ∧ (p.size = 0 → p.offset < l.stackBottom)) :
    Sound o prog l := by
  obtain ⟨s₁,one,made⟩ := bind_ok made
  obtain ⟨s₂,two,made⟩ := bind_ok (x := pass unbounded false prog s₁) made
  have first := pass_passed one
  have second := pass_passed two
  obtain ⟨placed,dataEnd,bottom,top,heap,pages⟩ := finish_parts made
  obtain ⟨new,grown,kinds⟩ := second.added
  have sized : ∀ p ∈ s₂.placed, 0 ≤ p.size := fun p member => (roomy p (placed ▸ member)).1
  have start : Ordered ⟨dataBase,[]⟩ := ⟨Int.le_refl _,by simp,by simp,List.Pairwise.nil⟩
  have kept : ∀ p ∈ s₁.placed, p ∈ s₂.placed := fun p member => grown ▸ List.mem_append_left _ member
  obtain ⟨ordered₁,_⟩ := first.ordered start fun p member => sized p (kept p member)
  obtain ⟨ordered,_⟩ := second.ordered ordered₁ sized
  have low := ordered.low
  obtain ⟨above,_⟩ := unbounded_align (by unfold dataBase at low; omega : 0 ≤ s₂.addr) (by decide : (1 : Int) ≤ 16)
  obtain ⟨enough,_⟩ := unbounded_align (by have := o.stack.1; omega : 0 ≤ o.stackSize) (by decide : (1 : Int) ≤ 16)
  rw [← bottom] at above
  refine ⟨?_,?_,?_,?_,?_,?_,?_,?_⟩
  · intro var member object definition
    cases kind : var.initialised with
    | true =>
      obtain ⟨p,held,name⟩ := first.defined var member object definition kind
      exact ⟨p,placed ▸ kept p held,name⟩
    | false =>
      obtain ⟨p,held,name⟩ := second.defined var member object definition kind
      exact ⟨p,placed ▸ held,name⟩
  · intro p member
    by_cases least : 1 ≤ p.align
    · exact ordered.aligned p (placed ▸ member) least
    · exact (roomy p member).2.1 (by omega)
  · intro p member
    have room := ordered.ends p (placed ▸ member)
    have size := (roomy p member).1
    refine ⟨room.1,?_⟩
    by_cases empty : p.size = 0
    · exact (roomy p member).2.2 empty
    · omega
  · intro p member
    have room := ordered.ends p (placed ▸ member)
    exact ⟨(roomy p member).1,by omega⟩
  · rw [placed]
    exact ordered.disjoint
  · intro p member kind
    rw [placed,grown] at member
    rw [dataEnd]
    rcases List.mem_append.mp member with old | late
    · exact (ordered₁.ends p old).2
    · have other := kinds p late
      rw [kind] at other
      cases other
  · rw [top]
    omega
  · exact ⟨heap.symm,by omega⟩

theorem sound_roomy {o : Options} {prog : List Var} {l : Layout} (sound : Sound o prog l) : ∀ p ∈ l.placed,
    0 ≤ p.size ∧ (p.align < 1 → p.align ∣ p.offset) ∧ (p.size = 0 → p.offset < l.stackBottom) :=
  fun p member => ⟨(sound.storage p member).1,fun _ => sound.aligned p member,fun _ => (sound.inside p member).2⟩

theorem static_layout_iff_roomy (o : Options) (prog : List Var) :
    Holds o prog (layoutGlobals machine o prog) ↔ Roomy o prog := by
  have same : Alike (layoutGlobals machine o prog) (layoutGlobals unbounded o prog) := layout_alike
  rcases same with equal | ⟨⟨v,one,wide⟩,w,two,long⟩
  · rw [equal]
    constructor
    · intro holds
      exact ⟨holds.1,fun l made => sound_roomy (holds.2 l made)⟩
    · intro roomy
      exact ⟨roomy.1,fun l made => unbounded_sound made (roomy.2 l made)⟩
  · exact iff_of_false (fun holds => wide (holds.1 v one)) fun roomy => long (roomy.1 w two)

namespace Controls

def options : Options := ⟨1048576,256,by decide,by decide⟩

-- int x; int a[]; int y; the array has size -4, so y is placed on x.
def incomplete : List Var :=
  [⟨"x",false,true,false,4,4⟩,⟨"a",false,true,false,-4,4⟩,⟨"y",false,true,false,4,4⟩]

def overlapping : List Placed := [⟨"x",false,4,4,1024⟩,⟨"a",false,-4,4,1028⟩,⟨"y",false,4,4,1024⟩]

theorem incomplete_array_overlaps : ¬Holds options incomplete (layoutGlobals machine options incomplete) := by
  intro holds
  have made : (layoutGlobals machine options incomplete).result = .ok ⟨overlapping,1024,1040,1049616,1049616,17⟩ := by
    decide +kernel
  have apart := (holds.2 _ made).disjoint
  revert apart
  decide

-- char big[2147482620]; long long z; with the alignment of z the sum leaves int.
def wide : List Var := [⟨"big",false,true,false,2147482620,1⟩,⟨"z",false,true,false,8,8⟩]

theorem wide_globals_overflow : ¬Holds options wide (layoutGlobals machine options wide) := by
  intro holds
  have sum := holds.1 (32,2147483652) (by decide +kernel)
  exact absurd sum.2 (by decide)

end Controls

end SandboxStack.StaticLayout
