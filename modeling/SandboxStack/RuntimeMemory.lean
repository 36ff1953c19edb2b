import SandboxStack.LittleEndian
import SandboxStack.Trapping

namespace SandboxStack.Runtime
open LittleEndian Trapping

inductive Trap where
  | unreachable | divByZero | intOverflow | invalidConversion | allocationFailed
  | outOfBoundsMemory | outOfBoundsTable | nullFunction | indirectCallTypeMismatch
  deriving DecidableEq, Repr

def Trap.code : Trap → Nat
  | .unreachable => 1
  | .divByZero => 2
  | .intOverflow => 3
  | .invalidConversion => 4
  | .allocationFailed => 5
  | .outOfBoundsMemory => 6
  | .outOfBoundsTable => 7
  | .nullFunction => 8
  | .indirectCallTypeMismatch => 9

-- `data` is a host address, 0 for NULL.
structure WasmMemory where
  data : Nat
  size : U32
  pages : U32
  maxPages : U32
  deriving DecidableEq, Repr

def wasmPageSize : U32 := 65536

-- The link-time objects `wasm_arena` and `wasm_arena_pages`.
structure Arena where
  wasmArena : Nat
  wasmArenaPages : U32
  placed : wasmArena ≠ 0

def sysRead : Nat := 0
def sysWrite : Nat := 1
def sysExit : Nat := 60

-- What a system call is handed: host memory from an address on, the local
-- array of `trap`, or nothing.
inductive Buffer where
  | host (addr : Nat)
  | message (text : List U8)
  | none
  deriving DecidableEq, Repr

inductive Event where
  | read (addr : Nat)
  | write (addr : Nat)
  | segment (bytes : List U8) (index : Nat)
  | syscall (n : Nat) (a : Int) (b : Buffer) (c : Nat)
  deriving DecidableEq, Repr

structure Host where
  bytes : Nat → U8
  wasmMemory0 : WasmMemory
  log : List Event

-- Why a run does not go on. `trap` and `sys_exit` do not return.
inductive Stop where
  | trap (reason : Trap)
  | exit (code : Int)
  deriving DecidableEq, Repr

abbrev Run := Trapping.Run Stop Host

def logged (e : Event) : Run Unit := Trapping.Run.modify fun h => {h with log := e :: h.log}

def readByte (addr : Nat) : Run U8 := do
  logged (.read addr)
  let h ← Trapping.Run.get
  return h.bytes addr

def writeByte (addr : Nat) (b : U8) : Run Unit := do
  logged (.write addr)
  Trapping.Run.modify fun h => {h with bytes := Function.update h.bytes addr b}

-- The kernel side of `sys3(SYS_read, ...)` and `sys3(SYS_write, ...)`: what it
-- delivers may depend on everything that happened before, and it never
-- delivers more than was asked for.
structure Kernel where
  read : List Event → Nat → Int × List U8
  write : List Event → Nat → Int
  fits : ∀ log len, (read log len).2.length ≤ len

def sysExitCall (code : Int) : Run α := do
  logged (.syscall sysExit code .none 0)
  Trapping.Run.stop (.exit code)

def trapMessage (t : Trap) : List U8 :=
  [116,114,97,112,58,32,BitVec.ofNat 8 (48 + t.code),10]

def trap (t : Trap) : Run α := do
  logged (.syscall sysWrite 2 (.message (trapMessage t)) 8)
  logged (.syscall sysExit (100 + t.code) .none 0)
  Trapping.Run.stop (.trap t)

-- memcpy, memmove and memset of the host, byte by byte.
def copyForward (d s : Nat) : Nat → Run Unit
  | 0 => pure ()
  | n+1 => do
    let b ← readByte s
    writeByte d b
    copyForward (d+1) (s+1) n

def copyBackward (d s : Nat) : Nat → Run Unit
  | 0 => pure ()
  | n+1 => do
    let b ← readByte (s-1)
    writeByte (d-1) b
    copyBackward (d-1) (s-1) n

def memmove (d s n : Nat) : Run Unit :=
  if d < s then copyForward d s n else copyBackward (d+n) (s+n) n

def memset (d : Nat) (c : U8) : Nat → Run Unit
  | 0 => pure ()
  | n+1 => do
    writeByte d c
    memset (d+1) c n

-- memcpy into a local object, from a local object, and from a segment array.
def memcpyOut (s : Nat) : Nat → Run (List U8)
  | 0 => pure []
  | n+1 => do
    let b ← readByte s
    let rest ← memcpyOut (s+1) n
    return b :: rest

def memcpyIn (d : Nat) : List U8 → Run Unit
  | [] => pure ()
  | b :: rest => do
    writeByte d b
    memcpyIn (d+1) rest

def memcpySegment (d : Nat) (seg : List U8) (i : Nat) : Nat → Run Unit
  | 0 => pure ()
  | n+1 => do
    logged (.segment seg i)
    writeByte d (seg.getD i 0)
    memcpySegment (d+1) seg (i+1) n

-- growth past the arena fails with -1
def clampPages (arena : Arena) (maxPages : U32) : U32 :=
  if maxPages > arena.wasmArenaPages then arena.wasmArenaPages else maxPages

def wasmMemoryAllocate (arena : Arena) (initialPages maxPages : U32) (shared : Bool) : Run Unit := do
  let h ← Trapping.Run.get
  if shared ∨ h.wasmMemory0.data ≠ 0 ∨ arena.wasmArenaPages ≥ 65536 ∨
      initialPages > clampPages arena maxPages then
    trap .allocationFailed
  else
    Trapping.Run.modify fun h => {h with wasmMemory0 :=
      ⟨arena.wasmArena,initialPages * wasmPageSize,initialPages,clampPages arena maxPages⟩}

def wasmMemoryGrow (delta : U32) : Run U32 := do
  let h ← Trapping.Run.get
  let m := h.wasmMemory0
  let old := m.pages
  let new := old + delta
  if new < old ∨ new > m.maxPages then return -1
  else
    -- arena is zero-initialised .bss and never shrinks, so new pages are already zero
    Trapping.Run.modify fun h => {h with
      wasmMemory0 := {m with pages := new,size := new * wasmPageSize}}
    return old

def wasmCheck (m : WasmMemory) (addr n : U32) : Run Unit :=
  if CInteger.exceeds addr n m.size then trap .outOfBoundsMemory else pure ()

def wasmMemoryCopy (d s : WasmMemory) (da sa n : U32) : Run Unit := do
  wasmCheck d da n
  wasmCheck s sa n
  memmove (d.data + da.toNat) (s.data + sa.toNat) n.toNat

def wasmMemoryFill (m : WasmMemory) (da v n : U32) : Run Unit := do
  wasmCheck m da n
  memset (m.data + da.toNat) (v.setWidth 8) n.toNat

-- LOAD_DATA(m, o, i, s): `s` is printed as the length of the array `i`.
def loadData (m : WasmMemory) (o : U32) (i : List U8) (s : U32) : Run Unit := do
  wasmCheck m o s
  memcpySegment (m.data + o.toNat) i 0 s.toNat

def wasmMemoryInit (m : WasmMemory) (dest : U32) (seg : List U8) (segLen src n : U32) : Run Unit := do
  if CInteger.exceeds src n segLen then trap .outOfBoundsMemory else
  wasmCheck m dest n
  memcpySegment (m.data + dest.toNat) seg src.toNat n.toNat

-- DEFINE_LOAD(name, t1, t2, t3): `n` is sizeof(t1), `conv` the casts (t3)(t2).
def defineLoad (n : Nat) (conv : BitVec (8 * n) → BitVec w) (m : WasmMemory) (a : U32) : Run (BitVec w) := do
  wasmCheck m a (BitVec.ofNat 32 n)
  let r ← memcpyOut (m.data + a.toNat) n
  return conv (ofBytes n r)

-- DEFINE_STORE(name, t1, t2): `n` is sizeof(t1).
def defineStore (n : Nat) (m : WasmMemory) (a : U32) (v : BitVec w) : Run Unit := do
  let w := v.setWidth (8 * n)
  wasmCheck m a (BitVec.ofNat 32 n)
  memcpyIn (m.data + a.toNat) (toBytes w)

def i32Load := defineLoad 4 (w := 32) id
def i64Load := defineLoad 8 (w := 64) id
def f32Load := defineLoad 4 (w := 32) id
def f64Load := defineLoad 8 (w := 64) id
def i32Load8S := defineLoad 1 (BitVec.signExtend 32)
def i64Load8S := defineLoad 1 (BitVec.signExtend 64)
def i32Load8U := defineLoad 1 (BitVec.setWidth 32)
def i64Load8U := defineLoad 1 (BitVec.setWidth 64)
def i32Load16S := defineLoad 2 (BitVec.signExtend 32)
def i64Load16S := defineLoad 2 (BitVec.signExtend 64)
def i32Load16U := defineLoad 2 (BitVec.setWidth 32)
def i64Load16U := defineLoad 2 (BitVec.setWidth 64)
def i64Load32S := defineLoad 4 (BitVec.signExtend 64)
def i64Load32U := defineLoad 4 (BitVec.setWidth 64)
def i32Store := defineStore 4 (w := 32)
def i64Store := defineStore 8 (w := 64)
def f32Store := defineStore 4 (w := 32)
def f64Store := defineStore 8 (w := 64)
def i32Store8 := defineStore 1 (w := 32)
def i32Store16 := defineStore 2 (w := 32)
def i64Store8 := defineStore 1 (w := 64)
def i64Store16 := defineStore 2 (w := 64)
def i64Store32 := defineStore 4 (w := 64)

def ret (r : Int) : U32 := if r < 0 then -1 else BitVec.ofInt 32 r

def envRead (k : Kernel) (fd ptr len : U32) : Run U32 := do
  let h ← Trapping.Run.get
  let m := h.wasmMemory0
  if fd ≠ 0 then return -1 else
  wasmCheck m ptr len
  let delivered := k.read h.log len.toNat
  logged (.syscall sysRead 0 (.host (m.data + ptr.toNat)) len.toNat)
  Trapping.Run.modify fun h => {h with bytes := fun a =>
    if m.data + ptr.toNat ≤ a then delivered.2.getD (a - (m.data + ptr.toNat)) (h.bytes a) else h.bytes a}
  return ret delivered.1

def envWrite (k : Kernel) (fd ptr len : U32) : Run U32 := do
  let h ← Trapping.Run.get
  let m := h.wasmMemory0
  if fd ≠ 1 ∧ fd ≠ 2 then return -1 else
  wasmCheck m ptr len
  logged (.syscall sysWrite fd.toNat (.host (m.data + ptr.toNat)) len.toNat)
  return ret (k.write h.log len.toNat)

def envExit (code : U32) : Run Unit := sysExitCall code.toInt

inductive LoadAccessor where
  | i32Load | i64Load | f32Load | f64Load | i32Load8S | i64Load8S | i32Load8U | i64Load8U
  | i32Load16S | i64Load16S | i32Load16U | i64Load16U | i64Load32S | i64Load32U
  deriving DecidableEq, Repr

inductive StoreAccessor where
  | i32Store | i64Store | f32Store | f64Store | i32Store8 | i32Store16 | i64Store8 | i64Store16 | i64Store32
  deriving DecidableEq, Repr

inductive Result where
  | unit
  | u32 (v : U32)
  | u64 (v : U64)
  deriving DecidableEq, Repr

def Run.result (wrap : α → Result) (r : Run α) : Run Result := do
  let v ← r
  return wrap v

def LoadAccessor.run (m : WasmMemory) (a : U32) : LoadAccessor → Run Result
  | .i32Load => (Runtime.i32Load m a).result .u32
  | .i64Load => (Runtime.i64Load m a).result .u64
  | .f32Load => (Runtime.f32Load m a).result .u32
  | .f64Load => (Runtime.f64Load m a).result .u64
  | .i32Load8S => (Runtime.i32Load8S m a).result .u32
  | .i64Load8S => (Runtime.i64Load8S m a).result .u64
  | .i32Load8U => (Runtime.i32Load8U m a).result .u32
  | .i64Load8U => (Runtime.i64Load8U m a).result .u64
  | .i32Load16S => (Runtime.i32Load16S m a).result .u32
  | .i64Load16S => (Runtime.i64Load16S m a).result .u64
  | .i32Load16U => (Runtime.i32Load16U m a).result .u32
  | .i64Load16U => (Runtime.i64Load16U m a).result .u64
  | .i64Load32S => (Runtime.i64Load32S m a).result .u64
  | .i64Load32U => (Runtime.i64Load32U m a).result .u64

-- A guest value is kept in 64 bits; the i32 accessors take its low half.
def StoreAccessor.run (m : WasmMemory) (a : U32) (v : U64) : StoreAccessor → Run Unit
  | .i32Store => Runtime.i32Store m a (v.setWidth 32)
  | .i64Store => Runtime.i64Store m a v
  | .f32Store => Runtime.f32Store m a (v.setWidth 32)
  | .f64Store => Runtime.f64Store m a v
  | .i32Store8 => Runtime.i32Store8 m a (v.setWidth 32)
  | .i32Store16 => Runtime.i32Store16 m a (v.setWidth 32)
  | .i64Store8 => Runtime.i64Store8 m a v
  | .i64Store16 => Runtime.i64Store16 m a v
  | .i64Store32 => Runtime.i64Store32 m a v

-- A data segment array dN with its length variable dN_len, which data.drop
-- sets to zero.
structure Segment where
  bytes : List U8
  len : U32
  small : bytes.length < 2 ^ 32
  tracked : len = BitVec.ofNat 32 bytes.length ∨ len = 0

inductive Operation where
  | grow (delta : U32)
  | load (accessor : LoadAccessor) (a : U32)
  | store (accessor : StoreAccessor) (a : U32) (v : U64)
  | loadData (o : U32) (seg : Segment)
  | copy (da sa n : U32)
  | fill (da v n : U32)
  | init (dest : U32) (seg : Segment) (src n : U32)
  | read (fd ptr len : U32)
  | write (fd ptr len : U32)
  | exit (code : U32)

def perform (k : Kernel) (op : Operation) : Run Result := do
  let h ← Trapping.Run.get
  let m := h.wasmMemory0
  match op with
  | .grow delta => (wasmMemoryGrow delta).result .u32
  | .load accessor a => accessor.run m a
  | .store accessor a v => (accessor.run m a v).result fun _ => .unit
  | .loadData o seg => (loadData m o seg.bytes (BitVec.ofNat 32 seg.bytes.length)).result fun _ => .unit
  | .copy da sa n => (wasmMemoryCopy m m da sa n).result fun _ => .unit
  | .fill da v n => (wasmMemoryFill m da v n).result fun _ => .unit
  | .init dest seg src n => (wasmMemoryInit m dest seg.bytes seg.len src n).result fun _ => .unit
  | .read fd ptr len => (envRead k fd ptr len).result .u32
  | .write fd ptr len => (envWrite k fd ptr len).result .u32
  | .exit code => (envExit code).result fun _ => .unit

end SandboxStack.Runtime
