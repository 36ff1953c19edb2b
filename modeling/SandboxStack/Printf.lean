import SandboxStack.OutputFiles

namespace SandboxStack.Printf
open NumberText Stdio

-- The locals of format that a conversion specification sets; int has 32 bits.
structure Spec where
  zero : Bool
  left : Bool
  width : BitVec 32
  prec : BitVec 32
  longs : Nat
  deriving DecidableEq

def isFlagByte (b : Byte) : Bool := b == 48 || b == 45
def isLongByte (b : Byte) : Bool := b == 108 || b == 122

-- width * 10 + (*fmt++ - '0'), digit after digit.
def readNumber (digits : List Byte) : BitVec 32 := digits.foldl (fun n b => n * 10 + (b.setWidth 32 - 48)) 0

def readPrec (fmt : List Byte) : BitVec 32 × List Byte :=
  match fmt with
  | 46 :: fmt => (readNumber (fmt.takeWhile isDigitByte),fmt.dropWhile isDigitByte)
  | fmt => (-1,fmt)

def readSpec (fmt : List Byte) : Spec × List Byte :=
  let flags := fmt.takeWhile isFlagByte
  let fmt := fmt.dropWhile isFlagByte
  let width := readNumber (fmt.takeWhile isDigitByte)
  let (prec,fmt) := readPrec (fmt.dropWhile isDigitByte)
  (⟨flags.contains 48,flags.contains 45,width,prec,(fmt.takeWhile isLongByte).length⟩,fmt.dropWhile isLongByte)

-- do { num[23 - len++] = digits[v % base]; v /= base; } while (v);
def digitLoop (digits : List Char) (base : Nat) (large : 1 < base) (v len : Nat) (num : List Byte) : Nat × List Byte :=
  let num := num.set (23 - len) (BitVec.ofNat 8 (digits.getD (v % base) '0').toNat)
  if v / base = 0 then (len + 1,num) else digitLoop digits base large (v / base) (len + 1) num
  termination_by v
  decreasing_by
    rename_i more
    have positive : 0 < v := Nat.pos_of_ne_zero fun zero => more (by rw [zero,Nat.zero_div])
    exact Nat.div_lt_self positive large

-- neg, the bytes in memory from `body` on, and len.
structure Body where
  neg : Bool
  bytes : List Byte
  len : BitVec 32

def lowerDigits : List Char := "0123456789abcdef".toList
def upperDigits : List Char := "0123456789ABCDEF".toList

-- The digits of v in the 24 bytes of num, whose contents are not initialised.
def number (digits : List Char) (base : Nat) (large : 1 < base) (neg : Bool) (v : Nat) (num : List Byte) : Body :=
  let (len,num) := digitLoop digits base large v 0 num
  let num := if neg then num.set (23 - len) 45 else num
  let len := if neg then len + 1 else len
  ⟨neg,num.drop (24 - len),BitVec.ofNat 32 len⟩

-- `none` is a trap or an argument that the conversion cannot take.
inductive Conversion where
  | body (b : Body) (args : List Arg)
  | aborts
  | traps

def strlen (memory : List Byte) : Option Nat := if 0 ∈ memory then some (cString memory).length else none

def nextUnsigned (longs : Nat) (args : List Arg) (next : Nat → Body) : Conversion :=
  match unsignedArg longs args with
  | none => .traps
  | some (v,args) => .body (next v) args

-- The switch. A string argument is the memory from its pointer to the end.
def convert (num : List Byte) (spec : Spec) (c : Byte) (args : List Arg) : Conversion :=
  match Char.ofNat c.toNat with
  | 's' =>
    match args with
    | .string s :: args =>
      let body := s.getD (text "(null)".toList ++ [0])
      match strlen body with
      | none => .traps
      | some n =>
        let len := BitVec.ofNat 32 n
        .body ⟨false,body,if (0 : BitVec 32).sle spec.prec ∧ spec.prec.slt len then spec.prec else len⟩ args
    | _ => .traps
  | 'c' =>
    match args with
    | .int v :: args => .body ⟨false,v.setWidth 8 :: num.tail,1⟩ args
    | _ => .traps
  | '%' => .body ⟨false,text ['%'],1⟩ args
  | 'd' | 'i' =>
    match signedArg spec.longs args with
    | none => .traps
    | some (sv,args) =>
      let v := if sv < 0 then (-(sv + 1)).toNat + 1 else sv.toNat
      .body (number lowerDigits 10 (by decide) (decide (sv < 0)) v num) args
  | 'u' => nextUnsigned spec.longs args fun v => number lowerDigits 10 (by decide) false v num
  | 'X' => nextUnsigned spec.longs args fun v => number upperDigits 16 (by decide) false v num
  | 'x' => nextUnsigned spec.longs args fun v => number lowerDigits 16 (by decide) false v num
  | _ => .aborts

-- while (width > len) { put(k, ..., 1); width--; }
def padding (width len : BitVec 32) (c : Byte) : List Byte :=
  if len.slt width then c :: padding (width - 1) len c else []
  termination_by (width.toInt - len.toInt).toNat
  decreasing_by
    rename_i more
    rw [BitVec.slt_iff_toInt_lt] at more
    have low := BitVec.le_toInt len
    have high := BitVec.toInt_lt (x := width)
    have less : (width - 1).toInt = width.toInt - 1 := by
      rw [BitVec.toInt_sub]
      exact Int.bmod_eq_of_le_mul_two (by simp; omega) (by simp; omega)
    omega

-- What a conversion puts out, and what it adds to count.
def layout (spec : Spec) (b : Body) : List Byte × BitVec 32 :=
  let apart := b.neg && spec.zero && !spec.left
  let body := if apart then b.bytes.tail else b.bytes
  let len := if apart then b.len - 1 else b.len
  let width := if apart then spec.width - 1 else spec.width
  let before := if spec.left then [] else padding width len (if spec.zero then 48 else 32)
  let after := if spec.left then padding width len 32 else []
  ((if apart then [45] else []) ++ before ++ body.take len.toNat ++ after,
    (if apart then 1 else 0) + BitVec.ofNat 32 before.length + len + BitVec.ofNat 32 after.length)

-- The bytes each turn of the loop puts out and the returned count; or what the
-- program ended with.
inductive Outcome where
  | returns (pieces : List (List Byte)) (count : BitVec 32)
  | aborts
  | traps
  deriving DecidableEq

def Outcome.after (piece : List Byte) : Outcome → Outcome
  | .returns pieces count => .returns (piece :: pieces) count
  | .aborts => .aborts
  | .traps => .traps

theorem readSpec_length (fmt : List Byte) : (readSpec fmt).2.length ≤ fmt.length := by
  have shorter : ∀ (p : Byte → Bool) (l : List Byte), (l.dropWhile p).length ≤ l.length := fun p l =>
    (List.dropWhile_suffix p).length_le
  have precise : ∀ l : List Byte, (readPrec l).2.length ≤ l.length := by
    intro l
    unfold readPrec
    split
    · exact (shorter _ _).trans (Nat.le_succ _)
    · exact Nat.le_refl _
  exact (shorter _ _).trans ((precise _).trans ((shorter _ _).trans (shorter _ _)))

-- The loop, on the bytes of the format before its 0. `num` is what the stack
-- holds where the 24 bytes are.
def format (num : List Byte) (fmt : List Byte) (args : List Arg) (count : BitVec 32) : Outcome :=
  match fmt with
  | [] => .returns [] count
  | b :: rest =>
    if b ≠ 37 then
      let run := b :: rest.takeWhile (· ≠ 37)
      (format num (rest.dropWhile (· ≠ 37)) args (count + BitVec.ofNat 32 run.length)).after run
    else
      match _spec : (readSpec rest).2 with
      | [] => .aborts
      | c :: after =>
        match convert num (readSpec rest).1 c args with
        | .aborts => .aborts
        | .traps => .traps
        | .body b args =>
          let (bytes,more) := layout (readSpec rest).1 b
          (format num after args (count + more)).after bytes
  termination_by fmt.length
  decreasing_by
    · have shorter := (List.dropWhile_suffix (· ≠ (37 : Byte)) (l := rest)).length_le
      simp at shorter ⊢
      omega
    · have shorter := readSpec_length rest
      rw [_spec] at shorter
      simp at shorter ⊢
      omega

def vfprintf (num fmt : List Byte) (args : List Arg) : Outcome := format num (cString fmt) args 0

end SandboxStack.Printf
