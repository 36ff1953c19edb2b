import SandboxStack.NumberText

namespace SandboxStack.Stdio
open NumberText

abbrev Byte := BitVec 8

scoped instance : LawfulBEq Byte := inferInstance

def text (cs : List Char) : List Byte := cs.map fun c => BitVec.ofNat 8 c.toNat

-- The lead byte of a UTF-8 sequence: how many bytes follow, the range of the
-- first of them, and the bits of the lead byte.
def lead (b : Byte) : Option (Nat × Byte × Byte × Nat) :=
  if b < 0x80 then some (0,0x80,0xbf,b.toNat)
  else if b < 0xc2 then none
  else if b < 0xe0 then some (1,0x80,0xbf,b.toNat - 0xc0)
  else if b < 0xf0 then some (2,if b = 0xe0 then 0xa0 else 0x80,if b = 0xed then 0x9f else 0xbf,b.toNat - 0xe0)
  else if b < 0xf5 then some (3,if b = 0xf0 then 0x90 else 0x80,if b = 0xf4 then 0x8f else 0xbf,b.toNat - 0xf0)
  else none

-- The code points of the bytes; within a sequence `more` bytes are still to come.
def decodeFrom (more : Nat) (low high : Byte) (point : Nat) : List Byte → Option (List Nat)
  | [] => if more = 0 then some [] else none
  | b :: rest =>
    if more = 0 then do
      let (more,low,high,point) ← lead b
      let points ← decodeFrom more low high point rest
      return if more = 0 then point :: points else points
    else if low ≤ b ∧ b ≤ high then do
      let point := point * 64 + b.toNat % 64
      let points ← decodeFrom (more - 1) 0x80 0xbf point rest
      return if more = 1 then point :: points else points
    else none

def decode (bytes : List Byte) : Option (List Nat) := decodeFrom 0 0x80 0xbf 0 bytes

def basename (points : List Nat) : List Nat := (points.reverse.takeWhile (· ≠ '/'.toNat)).reverse

-- Names that are always directories.
def isDirectory (points : List Nat) : Bool := points = [] || points = ['.'.toNat] || points = ['.'.toNat,'.'.toNat]

-- rsplit(b' ', 1)
def rsplit (bytes : List Byte) : Option (List Byte × List Byte) :=
  match bytes.reverse.dropWhile (· ≠ 32) with
  | [] => none
  | _ :: front => some (front.reverse,(bytes.reverse.takeWhile (· ≠ 32)).reverse)

-- int() of digits; the guest writes nothing else.
def readInt (bytes : List Byte) : Option Nat :=
  let cs := bytes.map fun b => Char.ofNat b.toNat
  if cs ≠ [] ∧ cs.all (isDigit 10) then some (read 10 cs) else none

def magic : List Byte := text "@@FILE ".toList

-- The record loop, on what is left of the data.
def splitRecords (data : List Byte) : Except String (List (List Byte × List Byte)) :=
  if data = [] then .ok []
  else if ¬magic.isPrefixOf data then .error "AssertionError"
  else if 10 ∉ data then .error "ValueError"
  else
    let line := data.takeWhile (· ≠ 10)
    let after := (data.dropWhile (· ≠ 10)).tail
    match rsplit (line.drop 7) with
    | none => .error "ValueError"
    | some (name,digits) =>
      match readInt digits with
      | none => .error "ValueError"
      | some n =>
        match decode name with
        | none => .error "UnicodeDecodeError"
        | some points =>
          if isDirectory (basename points) then .error "IsADirectoryError"
          else (splitRecords (after.drop n)).map ((name,after.take n) :: ·)
  termination_by data.length
  decreasing_by
    rename_i nonempty _ _
    have some_left := List.length_pos_iff.mpr nonempty
    have shorter := (List.dropWhile_suffix (· ≠ (10 : Byte)) (l := data)).length_le
    simp at shorter ⊢
    omega

def header (name : List Byte) (length : Nat) : List Byte := magic ++ (name ++ 32 :: text (written 10 length)) ++ [10]

def record (name contents : List Byte) : List Byte := header name contents.length ++ contents

def Recoverable (name : List Byte) : Prop := ∃ points, decode name = some points ∧ isDirectory (basename points) = false

section
variable {name contents rest : List Byte}

theorem digit_byte {c : Char} (digit : isDigit 10 c = true) :
    48 ≤ (BitVec.ofNat 8 c.toNat).toNat ∧ Char.ofNat (BitVec.ofNat 8 c.toNat).toNat = c := by
  have ranges : '0' ≤ c ∧ c ≤ '9' := by
    simpa [Char.isDigit,Char.le_def,UInt32.le_iff_toNat_le] using ten_digit digit
  have bounds : 48 ≤ c.toNat ∧ c.toNat ≤ 57 := ranges
  have kept : (BitVec.ofNat 8 c.toNat).toNat = c.toNat := by
    rw [BitVec.toNat_ofNat]
    omega
  rw [kept]
  exact ⟨bounds.1,Char.ofNat_toNat c⟩

-- No delimiter occurs in a number.
theorem digits_bytes {n : Nat} {delimiter : Byte} (control : delimiter.toNat < 48) : delimiter ∉ text (written 10 n) := by
  intro member
  obtain ⟨c,digit,same⟩ := List.mem_map.mp member
  have high := (digit_byte (written_isDigit (by decide) (by decide) digit)).1
  rw [same] at high
  omega

theorem readInt_written {n : Nat} : readInt (text (written 10 n)) = some n := by
  have back : (text (written 10 n)).map (fun b => Char.ofNat b.toNat) = written 10 n := by
    rw [text,List.map_map]
    refine (List.map_congr_left fun c member => ?_).trans (List.map_id _)
    exact (digit_byte (written_isDigit (by decide) (by decide) member)).2
  have digits : (written 10 n).all (isDigit 10) = true :=
    List.all_eq_true.mpr fun c member => written_isDigit (by decide) (by decide) member
  simp [readInt,back,digits,written_nonempty,read_written]

-- Up to the first delimiter.
theorem until_delimiter {front : List Byte} (back : List Byte) {delimiter : Byte} (absent : delimiter ∉ front) :
    (front ++ delimiter :: back).takeWhile (· ≠ delimiter) = front ∧
      (front ++ delimiter :: back).dropWhile (· ≠ delimiter) = delimiter :: back := by
  have before : ∀ b ∈ front, decide (b ≠ delimiter) = true := by
    intro b member
    exact decide_eq_true fun same => absent (same ▸ member)
  rw [List.takeWhile_append_of_pos before,List.dropWhile_append_of_pos before]
  simp

theorem rsplit_last {front back : List Byte} (absent : 32 ∉ back) : rsplit (front ++ 32 :: back) = some (front,back) := by
  have turned : (front ++ 32 :: back).reverse = back.reverse ++ 32 :: front.reverse := by simp
  have turnedAbsent : 32 ∉ back.reverse := by simpa using absent
  have parts := until_delimiter front.reverse turnedAbsent
  rw [rsplit,turned,parts.1,parts.2]
  simp

-- What the loop does with one record in front.
theorem splitRecords_record (line : 10 ∉ name) : splitRecords (record name contents ++ rest) =
    match decode name with
    | none => .error "UnicodeDecodeError"
    | some points =>
      if isDirectory (basename points) then .error "IsADirectoryError"
      else (splitRecords rest).map ((name,contents) :: ·) := by
  have shape : record name contents ++ rest =
      (magic ++ (name ++ 32 :: text (written 10 contents.length))) ++ 10 :: (contents ++ rest) := by
    simp [record,header]
  have header : 10 ∉ magic ++ (name ++ 32 :: text (written 10 contents.length)) := by
    have plain : (10 : Byte) ∉ magic := by decide
    simpa using ⟨plain,line,digits_bytes (by decide)⟩
  have parts := until_delimiter (contents ++ rest) header
  have starts : magic.isPrefixOf (record name contents ++ rest) = true := by
    rw [shape,List.append_assoc,List.isPrefixOf_iff_prefix]
    exact List.prefix_append _ _
  have nonempty : record name contents ++ rest ≠ [] := by
    rw [shape]
    simp
  have dropped : (magic ++ (name ++ 32 :: text (written 10 contents.length))).drop 7 =
      name ++ 32 :: text (written 10 contents.length) := rfl
  have newline : 10 ∈ record name contents ++ rest := by simp [shape]
  rw [splitRecords,if_neg nonempty,if_neg (not_not.mpr starts),if_neg (not_not.mpr newline)]
  rw [← shape] at parts
  dsimp only
  rw [parts.1,parts.2,dropped,rsplit_last (digits_bytes (by decide))]
  simp [readInt_written]

-- The loop recovers the records of a stream when it gets through all their names.
theorem splitRecords_stream {records : List (List Byte × List Byte)} (lines : ∀ r ∈ records, 10 ∉ r.1) :
    splitRecords (records.flatMap fun r => record r.1 r.2) = .ok records ↔ ∀ r ∈ records, Recoverable r.1 := by
  induction records with
  | nil => simp [splitRecords]
  | cons r rest ih =>
    have later := ih fun s member => lines s (.tail _ member)
    rw [List.flatMap_cons,splitRecords_record (lines r (.head _)),List.forall_mem_cons,← later]
    cases decoded : decode r.1 with
    | none => simp [Recoverable,decoded]
    | some points =>
      cases directory : isDirectory (basename points) with
      | true => simp [Recoverable,decoded,directory]
      | false =>
        cases split : splitRecords (rest.flatMap fun s => record s.1 s.2) <;>
          simp [Recoverable,decoded,directory,Except.map]

end

end SandboxStack.Stdio
