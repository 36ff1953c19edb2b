import SandboxStack.LinearMemory

namespace SandboxStack.Libc
open LinearMemory

-- What the allocator sees of an instance: its memory, and the static `heap_top`,
-- which lives below `__heap_base` and is kept apart here.
structure Instance where
  memory : Memory
  heapTop : U32

def builtinMemorySize (m : Memory) : U32 := BitVec.ofNat 32 m.pages

def builtinMemoryGrow (m : Memory) (pages : U32) : U32 × Memory :=
  match m.grow pages.toNat with
  | some grown => (builtinMemorySize m,grown)
  | none => (-1,m)

-- while (n--) *dd++ = ...; the pointers are 32 bits wide. `none` is a trap.
def memsetLoop (d : U32) (c : U8) : Nat → Memory → Option Memory
  | 0,m => some m
  | n+1,m => do
    let m ← m.store 1 d.toNat c
    memsetLoop (d + 1) c n m

def memset (d : U32) (c n : U32) (m : Memory) : Option Memory := memsetLoop d (c.setWidth 8) n.toNat m

def memcpyLoop (d s : U32) : Nat → Memory → Option Memory
  | 0,m => some m
  | n+1,m => do
    let b ← m.load 1 s.toNat
    let m ← m.store 1 d.toNat b
    memcpyLoop (d + 1) (s + 1) n m

def memcpy (d s n : U32) (m : Memory) : Option Memory := memcpyLoop d s n.toNat m

def roundUp (n : U32) : U32 := (n + 15) &&& ~~~15#32

def initialised (heapBase : U32) (s : Instance) : Instance :=
  if s.heapTop = 0 then {s with heapTop := roundUp heapBase} else s

-- The part of malloc after the size checks: heap_top, the header, the result.
def carve (cur top n : U32) (memory : Memory) : Option (U32 × Instance) := do
  let memory ← memory.store 4 cur.toNat n
  return (cur + 16,⟨memory,top⟩)

def malloc (heapBase n : U32) (s : Instance) : Option (U32 × Instance) :=
  let s := initialised heapBase s
  let n := roundUp n
  let cur := s.heapTop
  let top := cur + 16 + n
  if top < cur then some (0,s) else
  let last := builtinMemorySize s.memory <<< 16
  if top > last then
    let need := (top - last + 65535) >>> 16
    let grown := builtinMemoryGrow s.memory need
    if grown.1 = -1 then some (0,s) else carve cur top n grown.2
  else carve cur top n s.memory

def calloc (heapBase n m : U32) (s : Instance) : Option (U32 × Instance) :=
  if m ≠ 0 ∧ n > -1 / m then some (0,s) else do
  let (p,s) ← malloc heapBase (n * m) s
  if p ≠ 0 then
    let memory ← memset p 0 (n * m) s.memory
    return (p,{s with memory})
  else return (p,s)

def realloc (heapBase p n : U32) (s : Instance) : Option (U32 × Instance) :=
  if p = 0 then malloc heapBase n s else do
  let old ← s.memory.load 4 (p - 16).toNat
  if n ≤ old then return (p,s) else
  let (q,s) ← malloc heapBase n s
  if q ≠ 0 then
    let memory ← memcpy q p old s.memory
    return (q,{s with memory})
  else return (q,s)

def free (_p : U32) (s : Instance) : Option Instance := some s

end SandboxStack.Libc
