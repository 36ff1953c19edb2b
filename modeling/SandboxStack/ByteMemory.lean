import SandboxStack.LittleEndian

namespace SandboxStack.ByteMemory
open LittleEndian

-- Byte maps: the bytes of a range, and a range overwritten.
def window (bytes : Nat → U8) (s n : Nat) : List U8 := (List.range n).map fun i => bytes (s + i)

def overwrite (bytes : Nat → U8) (d : Nat) (new : List U8) : Nat → U8 :=
  fun a => if d ≤ a then new.getD (a - d) (bytes a) else bytes a

-- Byte arrays: the same two on a list.
def slice (bytes : List U8) (s n : Nat) : List U8 := (bytes.drop s).take n

def patch (bytes : List U8) (d : Nat) (new : List U8) : List U8 :=
  bytes.mapIdx fun i b => if d ≤ i then new.getD (i - d) b else b

section
variable {bytes : Nat → U8} {new : List U8} {a d s n k : Nat}

@[simp] theorem window_length : (window bytes s n).length = n := by simp [window]

@[simp] theorem patch_length {old : List U8} : (patch old d new).length = old.length := by simp [patch]

@[simp] theorem window_zero : window bytes s 0 = [] := rfl

theorem window_succ : window bytes s (n + 1) = bytes s :: window bytes (s + 1) n := by
  simp only [window,List.range_succ_eq_map,List.map_cons,List.map_map,Nat.add_zero]
  congr 1
  apply List.map_congr_left
  intro i _
  simp only [Function.comp,Nat.succ_eq_add_one]
  congr 1
  omega

theorem window_concat : window bytes s (n + 1) = window bytes s n ++ [bytes (s + n)] := by
  simp [window,List.range_succ]

theorem window_append : window bytes s (n + k) = window bytes s n ++ window bytes (s + n) k := by
  induction k with
  | zero => simp
  | succ k ih =>
    calc window bytes s (n + (k + 1))
        = window bytes s (n + k) ++ [bytes (s + (n + k))] := window_concat
      _ = window bytes s n ++ (window bytes (s + n) k ++ [bytes (s + n + k)]) := by
          rw [ih,List.append_assoc,Nat.add_assoc]
      _ = window bytes s n ++ window bytes (s + n) (k + 1) := by rw [window_concat]

theorem window_same {other : Nat → U8} (same : ∀ i < n, other (s + i) = bytes (s + i)) :
    window other s n = window bytes s n := by
  apply List.map_congr_left
  intro i inside
  exact same i (List.mem_range.mp inside)

theorem window_constant {c : U8} (all : ∀ i < n, bytes (s + i) = c) : window bytes s n = List.replicate n c := by
  apply List.ext_getElem?
  intro i
  by_cases inside : i < n
  · simp [window,inside,all i inside]
  · simp [window,inside]

theorem window_slice (inside : a + n ≤ k) : slice (window bytes s k) a n = window bytes (s + a) n := by
  apply List.ext_getElem?
  intro i
  by_cases short : i < n
  · have below : a + i < k := by omega
    simp [slice,window,short,below,Nat.add_assoc]
  · simp [slice,short]

theorem slice_take {old : List U8} (inside : s + n ≤ k) : slice (old.take k) s n = slice old s n := by
  simp only [slice,List.drop_take,List.take_take]
  congr 1
  omega

@[simp] theorem overwrite_nil : overwrite bytes d [] = bytes := by
  funext a
  simp [overwrite]

theorem overwrite_cons {b : U8} :
    overwrite (Function.update bytes d b) (d + 1) new = overwrite bytes d (b :: new) := by
  funext a
  unfold overwrite
  rcases Nat.lt_trichotomy a d with below | rfl | above
  · rw [if_neg (by omega),if_neg (by omega),Function.update_of_ne (by omega)]
  · rw [if_neg (by omega)]
    simp
  · obtain ⟨k,rfl⟩ := Nat.exists_eq_add_of_lt above
    rw [if_pos (by omega),if_pos (by omega),Function.update_of_ne (by omega)]
    rw [show d + k + 1 - (d + 1) = k by omega,show d + k + 1 - d = k + 1 by omega]
    simp

theorem overwrite_concat {b : U8} :
    overwrite (Function.update bytes (d + new.length) b) d new = overwrite bytes d (new ++ [b]) := by
  funext a
  unfold overwrite
  by_cases low : d ≤ a
  · rw [if_pos low,if_pos low]
    rcases Nat.lt_trichotomy (a - d) new.length with inside | last | beyond
    · simp [List.getD_eq_getElem?_getD,inside,List.getElem?_append_left]
    · have here : a = d + new.length := by omega
      simp [here,List.getD_eq_getElem?_getD]
    · have outside : a ≠ d + new.length := by omega
      rw [Function.update_of_ne outside]
      have past : (new ++ [b]).length ≤ a - d := by
        rw [List.length_append,List.length_singleton]
        omega
      rw [List.getD_eq_getElem?_getD,List.getD_eq_getElem?_getD,List.getElem?_eq_none past,
        List.getElem?_eq_none (Nat.le_of_lt beyond)]
  · rw [if_neg low,if_neg low,Function.update_of_ne (by omega)]

theorem overwrite_beyond (beyond : d + new.length ≤ a) : overwrite bytes d new a = bytes a := by
  unfold overwrite
  split
  · rw [List.getD_eq_getElem?_getD,List.getElem?_eq_none (by omega),Option.getD_none]
  · rfl

-- A range overwritten inside a window is the window patched.
theorem window_overwrite : window (overwrite bytes (s + d) new) s n = patch (window bytes s n) d new := by
  apply List.ext_getElem?
  intro i
  by_cases inside : i < n
  · simp only [window,patch,overwrite,List.getElem?_map,List.getElem?_range inside,List.getElem?_mapIdx,Option.map_some]
    by_cases above : d ≤ i
    · rw [if_pos (by omega),if_pos above,show s + i - (s + d) = i - d by omega]
    · rw [if_neg (by omega),if_neg above]
  · simp [window,patch,inside]

end

-- A linear memory as an array of bytes: its length is the current size, and
-- what an access beyond it yields is `none`, the trap.
structure Memory where
  bytes : List U8
  pages : Nat
  maxPages : Nat
  whole : bytes.length = pages * 65536
  grown : pages ≤ maxPages

def blank (pages maxPages : Nat) (room : pages ≤ maxPages) : Memory :=
  ⟨List.replicate (pages * 65536) 0,pages,maxPages,by simp,room⟩

@[simp] theorem blank_maxPages {pages maxPages : Nat} (room : pages ≤ maxPages) :
    (blank pages maxPages room).maxPages = maxPages := rfl

def Memory.Holds (m : Memory) (a n : Nat) : Prop := a + n ≤ m.bytes.length

instance (m : Memory) (a n : Nat) : Decidable (m.Holds a n) := inferInstanceAs (Decidable (_ ≤ _))

def Memory.write (m : Memory) (d : Nat) (new : List U8) : Memory :=
  {m with bytes := patch m.bytes d new,whole := patch_length.trans m.whole}

def Memory.load (m : Memory) (a n : Nat) : Option (List U8) :=
  if m.Holds a n then some (slice m.bytes a n) else none

def Memory.store (m : Memory) (a : Nat) (new : List U8) : Option Memory :=
  if m.Holds a new.length then some (m.write a new) else none

-- The source is read entirely before the destination is written.
def Memory.copy (m : Memory) (d s n : Nat) : Option Memory :=
  if m.Holds d n ∧ m.Holds s n then some (m.write d (slice m.bytes s n)) else none

def Memory.fill (m : Memory) (d : Nat) (b : U8) (n : Nat) : Option Memory :=
  m.store d (List.replicate n b)

def Memory.init (m : Memory) (d : Nat) (segment : List U8) (s n : Nat) : Option Memory :=
  if s + n ≤ segment.length ∧ m.Holds d n then some (m.write d (slice segment s n)) else none

theorem Memory.init_refused {m : Memory} {d s n : Nat} {segment : List U8}
    (outside : ¬(s + n ≤ segment.length ∧ m.Holds d n)) : m.init d segment s n = none := if_neg outside

theorem Memory.init_accepted {m : Memory} {d s n : Nat} {segment : List U8} (source : s + n ≤ segment.length)
    (dest : m.Holds d n) : m.init d segment s n = some (m.write d (slice segment s n)) := if_pos ⟨source,dest⟩

-- Growing never traps: `none` is the refusal.
def Memory.grow (m : Memory) (delta : Nat) : Option Memory :=
  if room : m.pages + delta ≤ m.maxPages then
    some ⟨m.bytes ++ List.replicate (delta * 65536) 0,m.pages + delta,m.maxPages,
      by simp [m.whole,Nat.add_mul],room⟩
  else none

end SandboxStack.ByteMemory
