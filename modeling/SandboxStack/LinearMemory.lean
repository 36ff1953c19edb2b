import SandboxStack.LittleEndian

namespace SandboxStack.LinearMemory
open LittleEndian

-- A WebAssembly linear memory. The byte map is total; every access is guarded
-- by the current size, and the page bounds are part of the value.
structure Memory where
  bytes : Nat → U8
  pages : Nat
  maxPages : Nat
  grown : pages ≤ maxPages
  addressable : maxPages ≤ 65536

theorem onePage_grown : 1 ≤ 1 := Nat.le_refl 1
theorem onePage_addressable : 1 ≤ 65536 := by decide

def Memory.size (m : Memory) : Nat := m.pages * 65536

def Memory.read (m : Memory) (a : Nat) : Nat → List U8
  | 0 => []
  | n+1 => m.bytes a :: m.read (a + 1) n

def Memory.write (m : Memory) (a : Nat) : List U8 → Memory
  | [] => m
  | b :: rest => Memory.write {m with bytes := Function.update m.bytes a b} (a + 1) rest

-- `none` is a trap.
def Memory.load (n : Nat) (m : Memory) (a : Nat) : Option (BitVec (8 * n)) :=
  if a + n ≤ m.size then some (ofBytes n (m.read a n)) else none

def Memory.store (n : Nat) (m : Memory) (a : Nat) (v : BitVec (8 * n)) : Option Memory :=
  if a + n ≤ m.size then some (m.write a (toBytes v)) else none

-- `none` is a refused growth. New pages show what the byte map holds there.
def Memory.grow (m : Memory) (delta : Nat) : Option Memory :=
  if room : m.pages + delta ≤ m.maxPages then some {m with pages := m.pages + delta,grown := room} else none

section
variable {m : Memory} {a b n : Nat} {bs : List U8}

@[simp] theorem read_length : (m.read a n).length = n := by
  induction n generalizing a with
  | zero => rfl
  | succ n ih => simp [Memory.read,ih]

@[simp] theorem write_pages : (m.write a bs).pages = m.pages := by
  induction bs generalizing m a with
  | nil => rfl
  | cons b rest ih => exact ih

@[simp] theorem write_maxPages : (m.write a bs).maxPages = m.maxPages := by
  induction bs generalizing m a with
  | nil => rfl
  | cons b rest ih => exact ih

@[simp] theorem write_size : (m.write a bs).size = m.size := by
  simp [Memory.size]

theorem write_outside {i : Nat} (outside : i < a ∨ a + bs.length ≤ i) : (m.write a bs).bytes i = m.bytes i := by
  induction bs generalizing m a with
  | nil => rfl
  | cons b rest ih =>
    simp only [List.length_cons] at outside
    rw [Memory.write,ih (by omega)]
    exact Function.update_of_ne (by omega) _ _

theorem write_inside {i : Nat} (inside : i < bs.length) : (m.write a bs).bytes (a + i) = bs[i] := by
  induction bs generalizing m a i with
  | nil => cases inside
  | cons b rest ih =>
    rw [Memory.write]
    cases i with
    | zero =>
      rw [write_outside (by omega)]
      exact Function.update_self a b m.bytes
    | succ i =>
      have next := ih (m := {m with bytes := Function.update m.bytes a b}) (a := a + 1) (i := i) (by simpa using inside)
      rw [show a + (i + 1) = a + 1 + i by omega,next]
      rfl

-- A read depends on nothing but the bytes of its range.
theorem read_same {m' : Memory} (same : ∀ i, a ≤ i → i < a + n → m'.bytes i = m.bytes i) :
    m'.read a n = m.read a n := by
  induction n generalizing a with
  | zero => rfl
  | succ n ih =>
    rw [Memory.read,Memory.read,same a (by omega) (by omega),ih fun i low high => same i (by omega) (by omega)]

theorem read_outside (apart : b + n ≤ a ∨ a + bs.length ≤ b) : (m.write a bs).read b n = m.read b n :=
  read_same fun i low high => write_outside (by omega)

theorem read_write : (m.write a bs).read a bs.length = bs := by
  induction bs generalizing m a with
  | nil => rfl
  | cons b rest ih =>
    rw [List.length_cons,Memory.read,Memory.write,ih]
    rw [write_outside (by omega)]
    exact congrArg (· :: rest) (Function.update_self a b m.bytes)

theorem read_entry {i : Nat} (inside : i < n) : (m.read a n)[i]? = some (m.bytes (a + i)) := by
  induction n generalizing a i with
  | zero => cases inside
  | succ n ih =>
    cases i with
    | zero => rfl
    | succ i =>
      have next := ih (a := a + 1) (i := i) (by omega)
      rw [show a + 1 + i = a + (i + 1) by omega] at next
      exact next

theorem write_cons (first : U8) : m.write a (first :: bs) = (m.write a [first]).write (a + 1) bs := rfl

theorem load_inside (inside : a + n ≤ m.size) : m.load n a = some (ofBytes n (m.read a n)) := if_pos inside
theorem store_inside {v : BitVec (8 * n)} (inside : a + n ≤ m.size) : m.store n a v = some (m.write a (toBytes v)) :=
  if_pos inside

end

theorem grow_parts {m m' : Memory} {delta : Nat} (grew : m.grow delta = some m') :
    m'.pages = m.pages + delta ∧ m'.maxPages = m.maxPages ∧ m'.bytes = m.bytes := by
  unfold Memory.grow at grew
  split at grew
  · cases grew; exact ⟨rfl,rfl,rfl⟩
  · cases grew

end SandboxStack.LinearMemory
