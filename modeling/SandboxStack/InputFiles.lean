import SandboxStack.Allocator
import SandboxStack.OutputFiles

namespace SandboxStack.InputFiles
open LinearMemory Libc

-- The object that fopen allocates; its fields are kept apart from the memory here.
structure FILE where
  fd : BitVec 32
  name : U32
  buf : U32
  len : U32
  cap : U32
  pos : U32
  out : Bool
  deriving DecidableEq

-- read(0, p, n): what the host answers to the k-th read when `left` bytes of the
-- input are left. A negative answer is an error.
structure Host where
  answer : Nat → Int → Nat → Int
  within : ∀ k n left, answer k n left ≤ left
  short : ∀ k n left, 0 < n → answer k n left ≤ n ∧ (0 < left → answer k n left ≠ 0)

inductive Outcome (α : Type) where
  | returns (a : α) (s : Instance)
  | exits (code : Nat)
  | traps

def grow (heapBase : U32) (f : FILE) (need : U32) (s : Instance) : Outcome FILE :=
  if need < f.len then .exits 121
  else
    match Stdio.growCap f.cap.toNat need.toNat with
    | none => .exits 121
    | some cap =>
      match realloc heapBase f.buf (BitVec.ofNat 32 cap) s with
      | none => .traps
      | some (q,s) => if q = 0 then .exits 122 else .returns {f with cap := BitVec.ofNat 32 cap,buf := q} s

def strcpy (d : U32) : List U8 → Memory → Option Memory
  | [],m => m.store 1 d.toNat 0
  | b :: rest,m => do
    let m ← m.store 1 d.toNat b
    strcpy (d + 1) rest m

-- The loop of fopen. The import checks the range it is given against the memory
-- and takes the size as an int.
def slurp (heapBase : U32) (host : Host) (f : FILE) (s : Instance) (reads : Nat) (rest : List U8) :
    Outcome (Option FILE) :=
  match if f.len = f.cap then grow heapBase f (f.cap + 1) s else .returns f s with
  | .traps => .traps
  | .exits code => .exits code
  | .returns f s =>
    let p := f.buf + f.len
    let asked := f.cap - f.len
    if s.memory.size < p.toNat + asked.toNat then .traps
    else
      let n := host.answer reads asked.toInt rest.length
      let s := {s with memory := s.memory.write p.toNat (rest.take n.toNat)}
      if n < 0 then .returns none s
      else if n = 0 then .returns (some f) s
      else slurp heapBase host {f with len := f.len + BitVec.ofInt 32 n} s (reads + 1) (rest.drop n.toNat)
  termination_by rest.length
  decreasing_by
    have within := host.within reads asked.toInt rest.length
    simp only [List.length_drop]
    have positive : 0 < host.answer reads asked.toInt rest.length := by omega
    show rest.length - (host.answer reads asked.toInt rest.length).toNat < _
    omega

-- `input` is what is left of the standard input; sizeof(FILE) is 28.
def fopen (heapBase : U32) (host : Host) (path mode input : List U8) (s : Instance) : Outcome (Option FILE) :=
  match calloc heapBase 1 28 s with
  | none => .traps
  | some (p,s) =>
    if p = 0 then .returns none s
    else
      match malloc heapBase (BitVec.ofNat 32 ((Stdio.cString path).length + 1)) s with
      | none => .traps
      | some (name,s) =>
        match malloc heapBase 65536 s with
        | none => .traps
        | some (buf,s) =>
          if name = 0 ∨ buf = 0 then .returns none s
          else
            match strcpy name (Stdio.cString path) s.memory with
            | none => .traps
            | some memory =>
              let f : FILE := ⟨-1,name,buf,0,65536,0,false⟩
              if mode.head? = some 114 then slurp heapBase host f {s with memory} 0 input
              else .returns (some {f with out := true}) {s with memory}

-- What fread copies of the bytes it is asked for.
def clipped (f : FILE) (total : U32) : U32 := if total > f.len - f.pos then f.len - f.pos else total

def fread (p sz n : U32) (f : FILE) (m : Memory) : Option (U32 × FILE × Memory) :=
  let total := sz * n
  if (0 : BitVec 32).sle f.fd ∨ f.out ∨ sz = 0 ∨ n = 0 ∨ f.pos ≥ f.len then some (0,f,m)
  else do
    let total := clipped f total
    let m ← memcpy p (f.buf + f.pos) total m
    return (total / sz,{f with pos := f.pos + total},m)

-- A long has 32 bits.
def fseek (off whence : BitVec 32) (f : FILE) : BitVec 32 × FILE :=
  let base := if whence = 0 then 0 else if whence = 1 then f.pos else if whence = 2 then f.len else -1
  if base.slt 0 ∨ (base + off).slt 0 then (-1,f) else (0,{f with pos := base + off})

def ftell (f : FILE) : BitVec 32 := f.pos
def rewind (f : FILE) : FILE := {f with pos := 0}

inductive Op where
  | fread (p sz n : U32)
  | fseek (off whence : BitVec 32)
  | ftell
  | rewind
  deriving DecidableEq, Repr

-- What a call returns: a size_t, an int or a long, or nothing.
inductive Answer where
  | size (n : Nat)
  | signed (v : Int)
  | nothing
  deriving DecidableEq, Repr

def step (f : FILE) (m : Memory) : Op → Option (Answer × FILE × Memory)
  | .fread p sz n => do
    let (count,f,m) ← fread p sz n f m
    return (.size count.toNat,f,m)
  | .fseek off whence => some (.signed (fseek off whence f).1.toInt,(fseek off whence f).2,m)
  | .ftell => some (.signed (ftell f).toInt,f,m)
  | .rewind => some (.nothing,rewind f,m)

def run (f : FILE) (m : Memory) : List Op → Option (List Answer × FILE × Memory)
  | [] => some ([],f,m)
  | op :: ops => do
    let (answer,f,m) ← step f m op
    let (answers,f,m) ← run f m ops
    return (answer :: answers,f,m)

end SandboxStack.InputFiles
