import SandboxStack.OpenAddressing
import SandboxStack.CInteger

namespace SandboxStack.Hashmap
open OpenAddressing

-- A pointer to a value; `none` is NULL.
abbrev Pointer (V : Type) := Option V

-- An entry with the key NULL or TOMBSTONE, or with keylen bytes of key.
abbrev HashEntry (V : Type) := Slot (List U8) (Pointer V)

structure HashMap (V : Type) where
  buckets : Option (List (HashEntry V))
  capacity : Nat
  used : Nat
  deriving DecidableEq

def initSize : Nat := 16
def highWatermark : Nat := 70
def lowWatermark : Nat := 50

def fnvHash (s : List U8) : BitVec 64 :=
  s.foldl (fun hash b => hash * 0x100000001b3 ^^^ b.setWidth 64) 0xcbf29ce484222325

-- The arithmetic of int, where it is defined.
def intMul (a b : Nat) : Option Nat := if a * b < 2 ^ 31 then some (a * b) else none
def intDiv (a b : Nat) : Option Nat := if b = 0 then none else some (a / b)

-- (hash + i) % map->capacity, in uint64_t.
def position (hash : BitVec 64) (capacity i : Nat) : Nat := ((hash + BitVec.ofNat 64 i) % BitVec.ofNat 64 capacity).toNat

section
variable {V : Type}

def keyed : HashEntry V → Bool
  | .full _ _ => true
  | _ => false

def taken : HashEntry V → Bool
  | .empty => false
  | _ => true

-- The loop of get_entry and of get_or_insert_entry: what the first turn that returns
-- makes of its entry. `none` is unreachable().
def search {R : Type} (map : HashMap V) (key : List U8) (turn : HashEntry V → Nat → Option R) : Option R :=
  (List.range map.capacity).findSome? fun i => do
    let j := position (fnvHash key) map.capacity i
    let ent ← (map.buckets.getD [])[j]?
    turn ent j

def getTurn (key : List U8) (ent : HashEntry V) (j : Nat) : Option (Option Nat) :=
  match ent with
  | .full k _ => if k = key then some (some j) else none
  | .deleted => none
  | .empty => some none

def getEntry (map : HashMap V) (key : List U8) : Option (Option Nat) :=
  match map.buckets with
  | none => some none
  | some _ => search map key (getTurn key)

-- The entry, and whether the turn counts it as used.
def insertTurn (key : List U8) (ent : HashEntry V) (j : Nat) : Option (Nat × Bool) :=
  match ent with
  | .full k _ => if k = key then some (j,false) else none
  | .deleted => some (j,false)
  | .empty => some (j,true)

-- while ((nkeys * 100) / cap >= LOW_WATERMARK) cap = cap * 2;
def growCapacity (nkeys cap : Nat) : Option Nat :=
  if cap = 0 then none
  else
    match intMul nkeys 100 with
    | none => none
    | some scaled =>
      if scaled / cap < lowWatermark then some cap
      else if cap * 2 < 2 ^ 31 then growCapacity nkeys (cap * 2)
      else none
  termination_by 2 ^ 31 - cap

-- The body of the copying loop. `put2` is hashmap_put2, which rehash calls for the new table.
def copyEntry (put2 : HashMap V → List U8 → Pointer V → Option (HashMap V)) (map2 : HashMap V) (ent : HashEntry V) :
    Option (HashMap V) :=
  match ent with
  | .full k v => put2 map2 k v
  | _ => some map2

def rehash (put2 : HashMap V → List U8 → Pointer V → Option (HashMap V)) (map : HashMap V) : Option (HashMap V) := do
  let buckets := (map.buckets.getD []).take map.capacity
  let nkeys := buckets.countP keyed
  let cap ← growCapacity nkeys map.capacity
  let map2 ← buckets.foldlM (copyEntry put2) ⟨some (List.replicate cap .empty),cap,0⟩
  if map2.used = nkeys then some map2 else none

-- The table with a place for another key.
def prepare (put2 : HashMap V → List U8 → Pointer V → Option (HashMap V)) (map : HashMap V) : Option (HashMap V) :=
  match map.buckets with
  | none => some ⟨some (List.replicate initSize .empty),initSize,map.used⟩
  | some _ => do
    let scaled ← intMul map.used 100
    let load ← intDiv scaled map.capacity
    if highWatermark ≤ load then rehash put2 map else some map

-- get_or_insert_entry stores the key in the entry, hashmap_put2 then the value.
def place (map : HashMap V) (key : List U8) (val : Pointer V) : Option (HashMap V) := do
  let (j,fresh) ← search map key (insertTurn key)
  return ⟨map.buckets.map (·.set j (.full key val)),map.capacity,if fresh then map.used + 1 else map.used⟩

-- The depth to which hashmap_put2 and rehash may call each other.
def put2 : Nat → HashMap V → List U8 → Pointer V → Option (HashMap V)
  | 0,_,_,_ => none
  | depth + 1,map,key,val => do place (← prepare (put2 depth) map) key val

def entryAt (map : HashMap V) (j : Nat) : Option (HashEntry V) := (map.buckets.getD [])[j]?

def get2 (map : HashMap V) (key : List U8) : Option (Pointer V) := do
  match ← getEntry map key with
  | none => return none
  | some j =>
    match ← entryAt map j with
    | .full _ val => return val
    | _ => none

def delete2 (map : HashMap V) (key : List U8) : Option (HashMap V) := do
  match ← getEntry map key with
  | none => return map
  | some j => return {map with buckets := map.buckets.map (·.set j .deleted)}

-- On the way to its own entry a search for the key meets a deleted one.
def Shadowed (map : HashMap V) (key : List U8) : Prop :=
  ∃ d < map.capacity, (∃ val, entryAt map (position (fnvHash key) map.capacity d) = some (.full key val)) ∧
    ∃ i < d, entryAt map (position (fnvHash key) map.capacity i) = some .deleted

def owned (key : List U8) : Option (HashEntry V) → Bool
  | some (.full k _) => k == key
  | _ => false

def gone : Option (HashEntry V) → Bool
  | some .deleted => true
  | _ => false

theorem owned_iff {key : List U8} {ent : Option (HashEntry V)} : owned key ent = true ↔ ∃ val, ent = some (.full key val) := by
  rcases ent with _ | _ | _ | ⟨k,v⟩ <;> simp [owned]

theorem gone_iff {ent : Option (HashEntry V)} : gone ent = true ↔ ent = some .deleted := by
  rcases ent with _ | _ | _ | ⟨k,v⟩ <;> simp [gone]

instance (map : HashMap V) (key : List U8) : Decidable (Shadowed map key) :=
  decidable_of_iff (∃ d < map.capacity, owned key (entryAt map (position (fnvHash key) map.capacity d)) ∧
    ∃ i < d, gone (entryAt map (position (fnvHash key) map.capacity i))) (by simp only [owned_iff,gone_iff,Shadowed])

inductive Op (V : Type) where
  | get (key : List U8)
  | put (key : List U8) (val : Pointer V)
  | delete (key : List U8)
  deriving DecidableEq

def Op.isPut : Op V → Bool
  | .put _ _ => true
  | _ => false

-- The map, and what hashmap_get2 returned.
def step (depth : Nat) (map : HashMap V) : Op V → Option (HashMap V × List (Pointer V))
  | .get key => (get2 map key).map fun val => (map,[val])
  | .put key val => (put2 depth map key val).map fun map => (map,[])
  | .delete key => (delete2 map key).map fun map => (map,[])

def run (depth : Nat) (map : HashMap V) : List (Op V) → Option (HashMap V × List (Pointer V))
  | [] => some (map,[])
  | op :: ops => do
    let (map,out) ← step depth map op
    let (map,outs) ← run depth map ops
    return (map,out ++ outs)

-- A map that is zero-initialised.
def zeroed : HashMap V := ⟨none,0,0⟩

end

end SandboxStack.Hashmap
