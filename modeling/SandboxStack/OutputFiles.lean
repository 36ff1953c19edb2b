import SandboxStack.SplitRecords

namespace SandboxStack.Stdio
open NumberText

-- A file opened for writing: fd is -1 and out is 1. `buf` is the block of `cap` bytes.
structure FILE where
  name : List Byte
  buf : Nat → Byte
  len : Nat
  cap : Nat

-- The host: how much of the n bytes left its k-th write takes, an ssize_t, and
-- what the memory holds that the guest has not written.
structure Host where
  accept : Nat → Nat → Int
  short : ∀ k n, 0 < n → 0 < accept k n ∧ accept k n ≤ n ∧ accept k n < 2 ^ 31
  fresh : FILE → Nat → Byte

structure Guest where
  files : List FILE
  stdout : List Byte
  writes : Nat
  exited : Option Nat
  executed : Nat

def Guest.start : Guest := ⟨[],[],0,none,0⟩

-- write_all(1, p, n)
def Guest.writeAll (host : Host) (g : Guest) (p : List Byte) : Guest :=
  if p = [] then g
  else
    let w := host.accept g.writes p.length
    if w ≤ 0 then {g with exited := some 120,writes := g.writes + 1}
    else writeAll host {g with stdout := g.stdout ++ p.take w.toNat,writes := g.writes + 1} (p.drop w.toNat)
  termination_by p.length
  decreasing_by
    rename_i nonempty positive
    have some_left := List.length_pos_iff.mpr nonempty
    simp at positive ⊢
    omega

-- size_t has 32 bits.
def sizeMax : Nat := 2 ^ 32 - 1
def size (n : Nat) : Nat := n % 2 ^ 32

-- A capacity is never 0.
def growCap (cap need : Nat) : Option Nat :=
  if 0 < cap ∧ cap < need then
    if cap > sizeMax / 2 then none else growCap (cap * 2) need
  else some cap
  termination_by need - cap

def realloc (fresh : Nat → Byte) (old : Nat) (buf : Nat → Byte) : Nat → Byte := fun i => if i < old then buf i else fresh i

def grow (host : Host) (f : FILE) (need : Nat) : Except Nat FILE :=
  if need < f.len then .error 121
  else
    match growCap f.cap need with
    | none => .error 121
    | some cap => .ok {f with cap,buf := realloc (host.fresh f) f.cap f.buf}

def cString (s : List Byte) : List Byte := s.takeWhile (· ≠ 0)

-- fopen(path, "w"); a new block holds anything.
def fopen (host : Host) (path : List Byte) : FILE :=
  let f : FILE := ⟨cString path,fun _ => 0,0,65536⟩
  {f with buf := host.fresh f}

def reserve (host : Host) (f : FILE) (need : Nat) : Except Nat FILE := if need > f.cap then grow host f need else .ok f

def fwrite (host : Host) (p : List Byte) (sz n : Nat) (f : FILE) : Except Nat FILE := do
  let total := size (sz * n)
  let f ← reserve host f (size (f.len + total))
  return {f with
    buf := fun i => if f.len ≤ i ∧ i < f.len + total then p.getD (i - f.len) 0 else f.buf i
    len := size (f.len + total)}

def fputc (host : Host) (c : Byte) (f : FILE) : Except Nat FILE := fwrite host [c] 1 1 f

def fputs (host : Host) (s : List Byte) (f : FILE) : Except Nat FILE := fwrite host s 1 (cString s).length f

-- The arguments of printf. One that does not fit its conversion stops the program.
inductive Arg where
  | int (v : BitVec 32)
  | longLong (v : BitVec 64)
  | string (s : Option (List Byte))
  deriving DecidableEq

structure Spec where
  zero : Bool
  left : Bool
  width : Nat
  prec : Option Nat
  longs : Nat

def isDigitByte (b : Byte) : Bool := 48 ≤ b && b ≤ 57
def digitsValue (bytes : List Byte) : Nat := bytes.foldl (fun n b => n * 10 + (b.toNat - 48)) 0

-- Flags, width, precision and length of a conversion, and what follows.
def readSpec (fmt : List Byte) : Spec × List Byte :=
  let flags := fmt.takeWhile fun b => b == 48 || b == 45
  let fmt := fmt.dropWhile fun b => b == 48 || b == 45
  let width := fmt.takeWhile isDigitByte
  let fmt := fmt.dropWhile isDigitByte
  let precise := fmt.head? == some 46
  let fmt := if precise then fmt.tail else fmt
  let prec := fmt.takeWhile fun b => precise && isDigitByte b
  let fmt := fmt.dropWhile fun b => precise && isDigitByte b
  let longs := fmt.takeWhile fun b => b == 108 || b == 122
  (⟨flags.contains 48,flags.contains 45,digitsValue width,if precise then some (digitsValue prec) else none,longs.length⟩,
    fmt.dropWhile fun b => b == 108 || b == 122)

-- A converted argument: is it negative, and its text.
structure Body where
  neg : Bool
  bytes : List Byte

def lower (cs : List Char) : List Char := cs.map Char.toLower

def unsignedArg (longs : Nat) : List Arg → Option (Nat × List Arg)
  | .int v :: args => if longs ≥ 2 then none else some (v.toNat,args)
  | .longLong v :: args => if longs ≥ 2 then some (v.toNat,args) else none
  | _ => none

def signedArg (longs : Nat) : List Arg → Option (Int × List Arg)
  | .int v :: args => if longs ≥ 2 then none else some (v.toInt,args)
  | .longLong v :: args => if longs ≥ 2 then some (v.toInt,args) else none
  | _ => none

def convert (spec : Spec) (c : Char) (args : List Arg) : Option (Body × List Arg) :=
  match c with
  | 's' =>
    match args with
    | .string s :: args =>
      let body := cString (s.getD (text "(null)".toList))
      some (⟨false,match spec.prec with | some prec => body.take prec | none => body⟩,args)
    | _ => none
  | 'c' =>
    match args with
    | .int v :: args => some (⟨false,[v.setWidth 8]⟩,args)
    | _ => none
  | '%' => some (⟨false,text ['%']⟩,args)
  | 'd' | 'i' => (signedArg spec.longs args).map fun (v,args) =>
    (⟨decide (v < 0),text ((if v < 0 then ['-'] else []) ++ written 10 v.natAbs)⟩,args)
  | 'u' => (unsignedArg spec.longs args).map fun (v,args) => (⟨false,text (written 10 v)⟩,args)
  | 'X' => (unsignedArg spec.longs args).map fun (v,args) => (⟨false,text (written 16 v)⟩,args)
  | 'x' => (unsignedArg spec.longs args).map fun (v,args) => (⟨false,text (lower (written 16 v))⟩,args)
  | _ => none

-- The pieces that are put out for it, padded to the width.
def layout (spec : Spec) (body : Body) : List (List Byte) :=
  let apart := body.neg && spec.zero && !spec.left
  let rest := if apart then body.bytes.tail else body.bytes
  let width := if apart then spec.width - 1 else spec.width
  (if apart then [text ['-']] else []) ++
  (if spec.left then [] else List.replicate (width - rest.length) (text [if spec.zero then '0' else ' '])) ++ [rest] ++
  if spec.left then List.replicate (width - rest.length) (text [' ']) else []

theorem readSpec_length (fmt : List Byte) : (readSpec fmt).2.length ≤ fmt.length := by
  have shorter : ∀ (p : Byte → Bool) (l : List Byte), (l.dropWhile p).length ≤ l.length := fun p l =>
    (List.dropWhile_suffix p).length_le
  have tail : ∀ (b : Bool) (l : List Byte), (if b then l.tail else l).length ≤ l.length := by
    intro b l
    cases b <;> simp
  refine (shorter _ _).trans ((shorter _ _).trans ((tail _ _).trans ((shorter _ _).trans (shorter _ _))))

-- The pieces, and whether the whole format was gone through.
def format (fmt : List Byte) (args : List Arg) : List (List Byte) × Bool :=
  match fmt with
  | [] => ([],true)
  | b :: rest =>
    if b ≠ 37 then
      let (pieces,done) := format (rest.dropWhile (· ≠ 37)) args
      ((b :: rest.takeWhile (· ≠ 37)) :: pieces,done)
    else
      match _spec : (readSpec rest).2 with
      | [] => ([],false)
      | c :: after =>
        match convert (readSpec rest).1 (Char.ofNat c.toNat) args with
        | none => ([],false)
        | some (body,args) =>
          let (pieces,done) := format after args
          (layout (readSpec rest).1 body ++ pieces,done)
  termination_by fmt.length
  decreasing_by
    · have shorter := (List.dropWhile_suffix (· ≠ (37 : Byte)) (l := rest)).length_le
      simp at shorter ⊢
      omega
    · have shorter := readSpec_length rest
      rw [_spec] at shorter
      simp at shorter ⊢
      omega

def putAll (host : Host) (f : FILE) : List (List Byte) → Except Nat FILE
  | [] => .ok f
  | piece :: rest => do
    let f ← fwrite host piece 1 piece.length f
    putAll host f rest

-- An unsupported conversion aborts when the pieces before it are out.
def fprintf (host : Host) (fmt : List Byte) (args : List Arg) (f : FILE) : Except Nat FILE := do
  let f ← putAll host f (format (cString fmt) args).1
  if (format (cString fmt) args).2 then .ok f else .error 134

def sprintf (fmt : List Byte) (args : List Arg) : List Byte := (format (cString fmt) args).1.flatten

def FILE.contents (f : FILE) : List Byte := (List.range f.len).map f.buf

def fclose (host : Host) (f : FILE) (g : Guest) : Guest :=
  let hdr := sprintf (text "@@FILE %s %lu\n".toList) [.string (some f.name),.int (BitVec.ofNat 32 f.len)]
  let g := g.writeAll host (cString hdr)
  if g.exited.isSome then g else g.writeAll host f.contents

inductive Op where
  | fopen (path : List Byte)
  | fwrite (p : List Byte) (sz n : Nat) (file : Nat)
  | fputc (c : Byte) (file : Nat)
  | fputs (s : List Byte) (file : Nat)
  | fprintf (fmt : List Byte) (args : List Arg) (file : Nat)
  | fclose (file : Nat)

-- An operation on a file that was never opened gets nowhere.
def Guest.onFile (g : Guest) (file : Nat) (act : FILE → Except Nat FILE) : Guest :=
  match g.files[file]? with
  | none => {g with exited := some 139}
  | some f =>
    match act f with
    | .error code => {g with exited := some code}
    | .ok f => {g with files := g.files.set file f,executed := g.executed + 1}

-- Files are known by the order in which they were opened.
def Guest.step (host : Host) (g : Guest) (op : Op) : Guest :=
  if g.exited.isSome then g
  else
    match op with
    | .fopen path => {g with files := g.files ++ [Stdio.fopen host path],executed := g.executed + 1}
    | .fwrite p sz n file => g.onFile file (Stdio.fwrite host p sz n)
    | .fputc c file => g.onFile file (Stdio.fputc host c)
    | .fputs s file => g.onFile file (Stdio.fputs host s)
    | .fprintf fmt args file => g.onFile file (Stdio.fprintf host fmt args)
    | .fclose file =>
      match g.files[file]? with
      | none => {g with exited := some 139}
      | some f =>
        let g := Stdio.fclose host f g
        if g.exited.isSome then g else {g with executed := g.executed + 1}

def Guest.run (host : Host) (g : Guest) (ops : List Op) : Guest := ops.foldl (Guest.step host) g

end SandboxStack.Stdio
