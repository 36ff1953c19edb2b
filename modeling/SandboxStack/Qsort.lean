import SandboxStack.StableSort

namespace SandboxStack.Qsort
open ThreeWaySort

-- qsort works on two objects: the array it is given, and its own `tmp`.
inductive Object where
  | array | tmp
  deriving DecidableEq, Repr

structure Objects where
  array : List (BitVec 8)
  tmp : List (BitVec 8)
  deriving DecidableEq, Repr

structure Pointer where
  object : Object
  offset : Nat
  deriving DecidableEq, Repr

inductive Stop where
  | aborted | outside
  deriving DecidableEq, Repr

namespace Objects

def get (o : Objects) : Object → List (BitVec 8)
  | .array => o.array
  | .tmp => o.tmp

def set (o : Objects) : Object → List (BitVec 8) → Objects
  | .array,bytes => {o with array := bytes}
  | .tmp,bytes => {o with tmp := bytes}

-- An access outside its object stops the run.
def read (o : Objects) (p : Pointer) : Except Stop (BitVec 8) :=
  match (o.get p.object)[p.offset]? with
  | some v => .ok v
  | none => .error .outside

def write (o : Objects) (p : Pointer) (v : BitVec 8) : Except Stop Objects :=
  if p.offset < (o.get p.object).length then .ok (o.set p.object ((o.get p.object).set p.offset v))
  else .error .outside

-- What a comparator reads through its argument.
def element (o : Objects) (p : Pointer) (size : Nat) : Except Stop (List (BitVec 8)) :=
  if p.offset + size ≤ (o.get p.object).length then .ok (((o.get p.object).drop p.offset).take size)
  else .error .outside

end Objects

def Pointer.next (p : Pointer) : Pointer := {p with offset := p.offset + 1}

def memcpy (d s : Pointer) : Nat → Objects → Except Stop Objects
  | 0,o => .ok o
  | n+1,o => do
    let v ← o.read s
    let o ← o.write d v
    memcpy d.next s.next n o

-- b + i * size, in size_t.
def elementAt (i size : Nat) : Pointer := ⟨.array,i * size % 2 ^ 32⟩

def tmp : Pointer := ⟨.tmp,0⟩

section
variable {σ : Type} (cmp : Comparator (List (BitVec 8)) σ) (size : Nat)

-- for (j = i; j > 0 && cmp(b + (j - 1) * size, tmp) > 0; j--), and the copy behind it.
def inner : Nat → Objects → σ → Except Stop (Objects × σ)
  | 0,o,s => do
    let o ← memcpy (elementAt 0 size) tmp size o
    return (o,s)
  | j+1,o,s => do
    let before ← o.element (elementAt j size) size
    let moved ← o.element tmp size
    let (c,s) := cmp j before moved s
    if 0 < c then
      let o ← memcpy (elementAt (j + 1) size) (elementAt j size) size o
      inner j o s
    else
      let o ← memcpy (elementAt (j + 1) size) tmp size o
      return (o,s)

def outer (n i : Nat) (o : Objects) (s : σ) : Except Stop (Objects × σ) :=
  if i < n then do
    let o ← memcpy tmp (elementAt i size) size o
    let (o,s) ← inner cmp size i o s
    outer n (i + 1) o s
  else .ok (o,s)
  termination_by n - i

-- `before` is what tmp[64] happens to hold.
def qsort (n : Nat) (before : Vector (BitVec 8) 64) (array : List (BitVec 8)) (s : σ) : Except Stop (Objects × σ) :=
  if 64 < size then .error .aborted else outer cmp size n 1 ⟨array,before.toList⟩ s

end

-- The elements of an array.
def chunks (size : Nat) : Nat → List (BitVec 8) → List (List (BitVec 8))
  | 0,_ => []
  | n+1,bytes => bytes.take size :: chunks size n (bytes.drop size)

-- An array of n elements, which is an object of the 32-bit memory.
structure ElementArray (size : Nat) where
  n : Nat
  bytes : List (BitVec 8)
  length : bytes.length = n * size
  room : n * size < 2 ^ 32

def Sized (size : Nat) (x : List (BitVec 8)) : Prop := x.length = size

theorem get_set (o : Objects) (a : Object) (bytes : List (BitVec 8)) : (o.set a bytes).get a = bytes := by
  cases a <;> rfl

theorem get_apart {a b : Object} (apart : b ≠ a) (o : Objects) (bytes : List (BitVec 8)) :
    (o.set a bytes).get b = o.get b := by
  cases a <;> cases b <;> first | rfl | exact absurd rfl apart

theorem set_set (o : Objects) (a : Object) (one two : List (BitVec 8)) : (o.set a one).set a two = o.set a two := by
  cases a <;> rfl

theorem set_get (o : Objects) (a : Object) : o.set a (o.get a) = o := by cases a <;> rfl

section
variable {o : Objects} {a b : Object} {before chunk hole between after behind : List (BitVec 8)} {v h : BitVec 8}

theorem read_head (before after : List (BitVec 8)) (v : BitVec 8) (bytes : o.get a = before ++ v :: after) :
    o.read ⟨a,before.length⟩ = .ok v := by
  unfold Objects.read
  rw [bytes]
  simp

theorem write_head (before after : List (BitVec 8)) (v h : BitVec 8) (bytes : o.get a = before ++ h :: after) :
    o.write ⟨a,before.length⟩ v = .ok (o.set a (before ++ v :: after)) := by
  unfold Objects.write
  rw [bytes]
  simp

theorem memcpy_step {d s : Pointer} {n : Nat} {o' : Objects} {r : Except Stop Objects} (read : o.read s = .ok v)
    (write : o.write d v = .ok o') (rest : memcpy d.next s.next n o' = r) : memcpy d s (n + 1) o = r := by
  rw [memcpy,read]
  dsimp only [bind,Except.bind]
  rw [write]
  exact rest

-- From one object to the other.
theorem memcpy_across {front : List (BitVec 8)} (apart : a ≠ b) (source : o.get a = before ++ chunk ++ after)
    (target : o.get b = front ++ hole ++ behind) (same : chunk.length = hole.length) :
    memcpy ⟨b,front.length⟩ ⟨a,before.length⟩ chunk.length o = .ok (o.set b (front ++ chunk ++ behind)) := by
  induction chunk generalizing o before front hole with
  | nil =>
    cases hole with
    | nil => rw [← target,set_get]; rfl
    | cons h hole => cases same
  | cons v chunk ih =>
    cases hole with
    | nil => cases same
    | cons h hole =>
      have read := read_head before (chunk ++ after) v (source.trans (by simp))
      have write := write_head front (hole ++ behind) v h (target.trans (by simp))
      have source' : (o.set b (front ++ v :: (hole ++ behind))).get a = (before ++ [v]) ++ chunk ++ after := by
        rw [get_apart apart,source]
        simp
      have target' : (o.set b (front ++ v :: (hole ++ behind))).get b = (front ++ [v]) ++ hole ++ behind := by
        rw [get_set]
        simp
      have rest := ih source' target' (Nat.succ.inj same)
      rw [List.length_append,List.length_append,List.length_singleton,set_set] at rest
      rw [List.length_cons,memcpy_step read write rest]
      simp

-- To a later part of the same object.
theorem memcpy_up (bytes : o.get a = before ++ chunk ++ between ++ hole ++ after) (same : chunk.length = hole.length) :
    memcpy ⟨a,before.length + chunk.length + between.length⟩ ⟨a,before.length⟩ chunk.length o =
      .ok (o.set a (before ++ chunk ++ between ++ chunk ++ after)) := by
  induction chunk generalizing o before between hole with
  | nil =>
    cases hole with
    | nil => rw [← bytes,set_get]; rfl
    | cons h hole => cases same
  | cons v chunk ih =>
    cases hole with
    | nil => cases same
    | cons h hole =>
      have read := read_head before (chunk ++ between ++ h :: hole ++ after) v (bytes.trans (by simp))
      have write := write_head (before ++ v :: chunk ++ between) (hole ++ after) v h (bytes.trans (by simp))
      have bytes' : (o.set a (before ++ v :: chunk ++ between ++ v :: (hole ++ after))).get a =
          (before ++ [v]) ++ chunk ++ (between ++ [v]) ++ hole ++ after := by
        rw [get_set]
        simp
      have rest := ih bytes' (Nat.succ.inj same)
      have start : (before ++ v :: chunk ++ between).length = before.length + (v :: chunk).length + between.length := by
        rw [List.length_append,List.length_append]
      have next : (before ++ [v]).length + chunk.length + (between ++ [v]).length =
          before.length + (v :: chunk).length + between.length + 1 := by
        simp
        omega
      rw [start] at write
      rw [next,List.length_append,List.length_singleton,set_set] at rest
      refine (memcpy_step read write rest).trans ?_
      simp

theorem flatten_sized {size : Nat} {xs : List (List (BitVec 8))} (sized : ∀ x ∈ xs, Sized size x) :
    xs.flatten.length = xs.length * size := by
  induction xs with
  | nil => simp
  | cons x xs ih =>
    have one : x.length = size := sized x (.head _)
    have rest := ih fun y member => sized y (.tail _ member)
    rw [List.flatten_cons,List.length_append,one,rest,List.length_cons,Nat.succ_mul,Nat.add_comm]

theorem reverse_sized {size : Nat} {ys : List (List (BitVec 8))} (sized : ∀ y ∈ ys, Sized size y) :
    ys.reverse.flatten.length = ys.length * size := by
  rw [flatten_sized fun y member => sized y (List.mem_reverse.mp member),List.length_reverse]

theorem elementAt_exact {i size n : Nat} (room : n * size < 2 ^ 32) (inside : i ≤ n) :
    elementAt i size = ⟨.array,i * size⟩ := by
  have bound : i * size ≤ n * size := Nat.mul_le_mul_right size inside
  rw [elementAt,Nat.mod_eq_of_lt (Nat.lt_of_le_of_lt bound room)]

theorem element_inside (before chunk after : List (BitVec 8)) (bytes : o.get a = before ++ chunk ++ after) :
    o.element ⟨a,before.length⟩ chunk.length = .ok chunk := by
  unfold Objects.element
  rw [bytes]
  simp

section
variable {σ : Type} {cmp : Comparator (List (BitVec 8)) σ} {size n : Nat} {x : List (BitVec 8)}
  {ys : List (List (BitVec 8))} {s : σ}

theorem put_tmp (front : List (BitVec 8)) {rest : List (BitVec 8)} (moved : Sized size x) (empty : Sized size hole)
    (kept : o.tmp = x ++ rest) (array : o.array = front ++ hole ++ behind) :
    memcpy ⟨.array,front.length⟩ tmp size o = .ok ⟨front ++ x ++ behind,x ++ rest⟩ := by
  have source : o.get .tmp = [] ++ x ++ rest := kept
  have target : o.get .array = front ++ hole ++ behind := array
  have copied := memcpy_across (by decide) source target (moved.trans empty.symm)
  rw [moved] at copied
  rw [← kept]
  exact copied

theorem move_up {front y : List (BitVec 8)} (moved : Sized size y) (empty : Sized size hole)
    (array : o.array = front ++ y ++ hole ++ behind) :
    memcpy ⟨.array,front.length + size⟩ ⟨.array,front.length⟩ size o =
      .ok ⟨front ++ y ++ y ++ behind,o.tmp⟩ := by
  have bytes : o.get .array = front ++ y ++ [] ++ hole ++ behind := by
    rw [List.append_nil]
    exact array
  have copied := memcpy_up bytes (moved.trans empty.symm)
  rw [List.append_nil,List.length_nil,moved] at copied
  exact copied

-- The hole behind the elements that are left to compare, and what was moved up behind it.
theorem inner_inserts (room : n * size < 2 ^ 32) (few : ys.length < n) (sized : ∀ y ∈ ys, Sized size y)
    (moved : Sized size x) (empty : Sized size hole) {rest : List (BitVec 8)} (kept : o.tmp = x ++ rest)
    (array : o.array = ys.reverse.flatten ++ hole ++ behind) :
    inner cmp size ys.length o s = .ok
      (⟨(insertBy cmp x ys s).1.reverse.flatten ++ behind,x ++ rest⟩,(insertBy cmp x ys s).2) := by
  induction ys generalizing o hole behind s with
  | nil =>
    have start : elementAt 0 size = ⟨.array,0⟩ := by simp [elementAt]
    have put := put_tmp [] moved empty kept array
    rw [List.length_nil,inner,start]
    rw [List.length_nil] at put
    rw [put]
    simp [insertBy,bind,Except.bind,pure,Except.pure]
  | cons y ys ih =>
    have less : ys.length + 1 < n := few
    have older : ∀ z ∈ ys, Sized size z := fun z member => sized z (.tail _ member)
    have this : Sized size y := sized y (.head _)
    have front : ys.reverse.flatten.length = ys.length * size := reverse_sized older
    have bytes : o.array = ys.reverse.flatten ++ y ++ hole ++ behind := by simp [array]
    have before : o.element (elementAt ys.length size) size = .ok y := by
      have inside := element_inside (o := o) (a := .array) ys.reverse.flatten y (hole ++ behind)
        (bytes.trans (by simp))
      rw [elementAt_exact room (by omega),← front]
      rwa [this] at inside
    have held : o.element tmp size = .ok x := by
      have inside := element_inside (o := o) (a := .tmp) [] x rest kept
      rwa [moved] at inside
    have place : elementAt (ys.length + 1) size = ⟨.array,ys.reverse.flatten.length + size⟩ := by
      rw [elementAt_exact room (Nat.le_of_lt less),front,Nat.succ_mul]
    rw [List.length_cons,inner,before]
    dsimp only [bind,Except.bind]
    rw [held]
    dsimp only
    unfold insertBy
    dsimp only
    split
    · have source : elementAt ys.length size = ⟨.array,ys.reverse.flatten.length⟩ := by
        rw [elementAt_exact room (by omega),front]
      rw [place,source,move_up this empty bytes]
      dsimp only
      have next : ys.reverse.flatten ++ y ++ y ++ behind = ys.reverse.flatten ++ y ++ (y ++ behind) := by simp
      rw [ih (o := ⟨ys.reverse.flatten ++ y ++ y ++ behind,o.tmp⟩) (by omega) older this kept next]
      simp
    · have put := put_tmp (ys.reverse.flatten ++ y) moved empty kept bytes
      rw [List.length_append,this] at put
      rw [place,put]
      simp [pure,Except.pure]

theorem insertBy_length : (insertBy cmp x ys s).1.length = ys.length + 1 :=
  (insertBy_perm cmp x ys s).length_eq

theorem insertBy_sized (sized : ∀ y ∈ ys, Sized size y) (moved : Sized size x) :
    ∀ y ∈ (insertBy cmp x ys s).1, Sized size y := by
  intro y member
  rcases List.mem_cons.mp ((insertBy_perm cmp x ys s).mem_iff.mp member) with rfl | old
  · exact moved
  · exact sized y old

-- The sorted part in front of the elements still to insert.
theorem outer_sorts (room : n * size < 2 ^ 32) (small : size ≤ o.tmp.length) {xs : List (List (BitVec 8))}
    (count : ys.length + xs.length = n) (sized : ∀ y ∈ ys, Sized size y) (sized' : ∀ y ∈ xs, Sized size y)
    (array : o.array = ys.reverse.flatten ++ xs.flatten) :
    ∃ held, outer cmp size n ys.length o s = .ok
      (⟨(sortBy cmp ys xs s).1.reverse.flatten,held⟩,(sortBy cmp ys xs s).2) := by
  induction xs generalizing o ys s with
  | nil =>
    refine ⟨o.tmp,?_⟩
    rw [outer,if_neg (by simp at count; omega)]
    simp only [List.flatten_nil,List.append_nil] at array
    rw [sortBy,← array]
  | cons x xs ih =>
    have moved : Sized size x := sized' x (.head _)
    have less : ys.length < n := by
      rw [List.length_cons] at count
      omega
    have place : elementAt ys.length size = ⟨.array,ys.reverse.flatten.length⟩ := by
      rw [elementAt_exact room (Nat.le_of_lt less),reverse_sized sized]
    have source : o.get .array = ys.reverse.flatten ++ x ++ xs.flatten := by
      rw [Objects.get,array]
      simp
    have target : o.get .tmp = [] ++ o.tmp.take size ++ o.tmp.drop size := by simp [Objects.get]
    have same : x.length = (o.tmp.take size).length := by
      rw [List.length_take,Nat.min_eq_left small]
      exact moved
    have taken := memcpy_across (by decide) source target same
    rw [moved] at taken
    have kept : (o.set .tmp ([] ++ x ++ o.tmp.drop size)).tmp = x ++ o.tmp.drop size := rfl
    have inserted : inner cmp size ys.length (o.set .tmp ([] ++ x ++ o.tmp.drop size)) s = _ :=
      inner_inserts room less sized moved moved kept source
    have long : size ≤ (x ++ o.tmp.drop size).length := by
      rw [List.length_append,moved]
      exact Nat.le_add_right ..
    have next : (insertBy cmp x ys s).1.length + xs.length = n := by
      rw [List.length_cons] at count
      rw [insertBy_length]
      omega
    have rest : ∀ y ∈ xs, Sized size y := fun y member => sized' y (.tail _ member)
    have after : (⟨(insertBy cmp x ys s).1.reverse.flatten ++ xs.flatten,x ++ o.tmp.drop size⟩ : Objects).array =
        (insertBy cmp x ys s).1.reverse.flatten ++ xs.flatten := rfl
    obtain ⟨held,sorted⟩ := ih (s := (insertBy cmp x ys s).2) long next (insertBy_sized sized moved) rest after
    rw [insertBy_length] at sorted
    refine ⟨held,?_⟩
    rw [outer,if_pos less,place]
    dsimp only [bind,Except.bind]
    rw [show memcpy tmp _ size o = _ from taken]
    dsimp only
    rw [inserted]
    exact sorted

end

section
variable {size : Nat}

theorem chunks_flatten {xs : List (List (BitVec 8))} (sized : ∀ x ∈ xs, Sized size x) :
    chunks size xs.length xs.flatten = xs := by
  induction xs with
  | nil => rfl
  | cons x xs ih =>
    have first : x.length = size := sized x (.head _)
    have rest := ih fun y member => sized y (.tail _ member)
    rw [List.length_cons,chunks,List.flatten_cons,← first,List.take_left',List.drop_left',first,rest]
    · rfl
    · rfl

theorem chunks_parts {n : Nat} {bytes : List (BitVec 8)} (length : bytes.length = n * size) :
    (chunks size n bytes).flatten = bytes ∧ (∀ x ∈ chunks size n bytes, Sized size x) ∧
      (chunks size n bytes).length = n := by
  induction n generalizing bytes with
  | zero =>
    have none_left : bytes = [] := List.length_eq_zero_iff.mp (by rw [length,Nat.zero_mul])
    rw [none_left]
    exact ⟨rfl,fun x member => (by cases member),rfl⟩
  | succ n ih =>
    rw [Nat.succ_mul] at length
    have rest : (bytes.drop size).length = n * size := by rw [List.length_drop]; omega
    obtain ⟨joined,sized,count⟩ := ih rest
    refine ⟨?_,fun x member => ?_,?_⟩
    · rw [chunks,List.flatten_cons,joined,List.take_append_drop]
    · rcases List.mem_cons.mp member with rfl | later
      · rw [Sized,List.length_take]
        omega
      · exact sized x later
    · rw [chunks,List.length_cons,count]

theorem qsort_sortBy {σ : Type} (small : size ≤ 64) (a : ElementArray size) (before : Vector (BitVec 8) 64)
    (cmp : Comparator (List (BitVec 8)) σ) (s : σ) :
    ∃ held, qsort cmp size a.n before a.bytes s = .ok
      (⟨(sortBy cmp [] (chunks size a.n a.bytes) s).1.reverse.flatten,held⟩,
        (sortBy cmp [] (chunks size a.n a.bytes) s).2) := by
  obtain ⟨n,bytes,length,room⟩ := a
  obtain ⟨joined,sized,count⟩ := chunks_parts length
  have wide : size ≤ before.toList.length := by simpa using small
  rw [qsort,if_neg (Nat.not_lt.mpr small)]
  dsimp only
  cases elements : chunks size n bytes with
  | nil =>
    rw [elements] at joined count
    have none_left : n = 0 := count.symm
    have blank : bytes = [] := joined.symm
    refine ⟨before.toList,?_⟩
    rw [outer,if_neg (by omega),blank]
    rfl
  | cons x xs =>
    rw [elements] at joined sized count
    have array : (⟨bytes,before.toList⟩ : Objects).array = [x].reverse.flatten ++ xs.flatten := by
      show bytes = _
      rw [← joined]
      simp
    have first : ∀ y ∈ [x], Sized size y := fun y member => sized y (List.mem_singleton.mp member ▸ .head _)
    have total : [x].length + xs.length = n := by
      rw [← count,List.length_cons,List.length_cons,List.length_nil,Nat.zero_add,Nat.add_comm]
    exact outer_sorts room wide total first (fun y member => sized y (.tail _ member)) array

end

end

-- What a run leaves of the array: its elements in another order.
def Permutes (a : ElementArray size) (bytes : List (BitVec 8)) : Prop :=
  bytes.length = a.bytes.length ∧ (chunks size a.n bytes).Perm (chunks size a.n a.bytes)

def StablySorted (c : List (BitVec 8) → List (BitVec 8) → Int) (a : ElementArray size) (bytes : List (BitVec 8)) :
    Prop :=
  (chunks size a.n bytes).Pairwise (fun x y => c x y ≤ 0) ∧
    ∀ z, Sized size z →
      (chunks size a.n bytes).filter (equivalent c z) = (chunks size a.n a.bytes).filter (equivalent c z)

theorem permuted (a : ElementArray size) {xs : List (List (BitVec 8))} (perm : xs.Perm (chunks size a.n a.bytes)) :
    Permutes a xs.flatten ∧ chunks size a.n xs.flatten = xs := by
  obtain ⟨_,sized,count⟩ := chunks_parts a.length
  have sized' : ∀ x ∈ xs, Sized size x := fun x member => sized x (perm.mem_iff.mp member)
  have count' : xs.length = a.n := perm.length_eq.trans count
  have parts : chunks size a.n xs.flatten = xs := by
    rw [← count']
    exact chunks_flatten sized'
  refine ⟨⟨?_,?_⟩,parts⟩
  · rw [flatten_sized sized',count',a.length]
  · rw [parts]
    exact perm

-- Every comparator: the run ends, stays inside its objects and permutes the array.
-- A total preorder: the permutation is the stable sorted one.
theorem qsort_correct (size : Nat) (small : size ≤ 64) (a : ElementArray size) (before : Vector (BitVec 8) 64) :
    (∀ (σ : Type) (cmp : Comparator (List (BitVec 8)) σ) (s : σ), ∃ o s',
      qsort cmp size a.n before a.bytes s = .ok (o,s') ∧ Permutes a o.array) ∧
    ∀ c, TotalPreorder c (Sized size) → ∃ o,
      qsort (stateless c) size a.n before a.bytes () = .ok (o,()) ∧ Permutes a o.array ∧
        StablySorted c a o.array := by
  constructor
  · intro σ cmp s
    obtain ⟨held,ran⟩ := qsort_sortBy small a before cmp s
    have perm := (List.reverse_perm _).trans (sortBy_perm cmp [] (chunks size a.n a.bytes) s)
    rw [List.append_nil] at perm
    exact ⟨_,_,ran,(permuted a perm).1⟩
  · intro c order
    obtain ⟨_,sized,_⟩ := chunks_parts a.length
    obtain ⟨held,ran⟩ := qsort_sortBy small a before (stateless c) ()
    rw [sortBy_stateless] at ran
    have perm : (sort c (chunks size a.n a.bytes)).Perm (chunks size a.n a.bytes) := sort_perm _
    obtain ⟨moved,parts⟩ := permuted a perm
    refine ⟨_,ran,moved,?_⟩
    obtain ⟨sorted,stable⟩ := sort_stable order sized
    unfold StablySorted
    dsimp only
    rw [show chunks size a.n (sortDown c [] (chunks size a.n a.bytes)).reverse.flatten = _ from parts]
    exact ⟨sorted,stable⟩

namespace Controls

-- Three elements of two bytes, compared by their first byte.
def three : ElementArray 2 := ⟨3,[2,0,1,1,2,2],rfl,by decide⟩

def first (x : List (BitVec 8)) : Int := ((x.head?.getD 0).toNat : Int)
def compareFirst (x y : List (BitVec 8)) : Int := first x - first y

-- One that does not look at the elements.
def erratic : Comparator (List (BitVec 8)) Nat := fun i _ _ calls => ((i : Int) - calls,calls + 1)

theorem compareFirst_order : TotalPreorder compareFirst (Sized 2) where
  total := by
    intro a b _ _
    unfold compareFirst
    omega
  chain := by
    intro a b c _ _ _ one two
    unfold compareFirst at *
    omega

end Controls

theorem qsort_correct_three :
    (∃ o s', qsort Controls.erratic 2 3 (Vector.replicate 64 0) Controls.three.bytes 0 = .ok (o,s') ∧
      Permutes Controls.three o.array) ∧
    ∃ o, qsort (stateless Controls.compareFirst) 2 3 (Vector.replicate 64 0) Controls.three.bytes () = .ok (o,()) ∧
      Permutes Controls.three o.array ∧ StablySorted Controls.compareFirst Controls.three o.array :=
  ⟨(qsort_correct 2 (by decide) Controls.three _).1 Nat Controls.erratic 0,
    (qsort_correct 2 (by decide) Controls.three _).2 _ Controls.compareFirst_order⟩

end SandboxStack.Qsort
