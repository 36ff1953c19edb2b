import SandboxStack.AllocatorSoundness
import SandboxStack.InputFiles

namespace SandboxStack.InputFiles
open LinearMemory LittleEndian Libc

section
variable {m : Memory} {a n k : Nat} {bs : List U8}

theorem read_append : m.read a (n + k) = m.read a n ++ m.read (a + n) k := by
  induction n generalizing a with
  | zero => rw [Nat.zero_add]; rfl
  | succ n ih =>
    rw [Nat.succ_add,Memory.read,ih,Memory.read,List.cons_append,show a + 1 + n = a + (n + 1) by omega]

theorem read_part {i : Nat} (inside : i ≤ n) : ((m.read a n).drop i).take k = m.read (a + i) (min k (n - i)) := by
  have split : m.read a n = m.read a i ++ m.read (a + i) (n - i) := by rw [← read_append,Nat.add_sub_cancel' inside]
  have dropped : (m.read a n).drop i = m.read (a + i) (n - i) := by
    rw [split]
    exact List.drop_left' read_length
  have again : m.read (a + i) (n - i) = m.read (a + i) (min k (n - i)) ++
      m.read (a + i + min k (n - i)) (n - i - min k (n - i)) := by
    rw [← read_append,Nat.add_sub_cancel' (Nat.min_le_right _ _)]
  rw [dropped]
  rcases Nat.le_total k (n - i) with short | long
  · rw [Nat.min_eq_left short] at again ⊢
    rw [again]
    exact List.take_left' read_length
  · rw [Nat.min_eq_right long]
    exact List.take_of_length_le (by rw [read_length]; exact long)

end

-- What malloc leaves when it returns a block.
structure Carved (n p : U32) (s s' : Instance) : Prop where
  place : p.toNat = s.heapTop.toNat + 16
  top : s'.heapTop.toNat = p.toNat + (roundUp n).toNat
  covered : s'.heapTop.toNat ≤ s'.memory.size
  header : s'.memory.load 4 (p - 16).toNat = some (roundUp n)
  kept : ∀ i < s.heapTop.toNat, s'.memory.bytes i = s.memory.bytes i

section
variable {heapBase n p : U32} {s s' : Instance}

theorem malloc_carved (made : Malloc heapBase n s p s') (nonzero : p ≠ 0) :
    Carved n p (initialised heapBase s) s' := by
  cases made with
  | null => exact absurd rfl nonzero
  | @carved p top memory place sum covered larger bytes =>
    have header : (p - 16).toNat = (initialised heapBase s).heapTop.toNat := by
      rw [BitVec.toNat_sub_of_le (BitVec.le_def.mpr (by simp; omega)),place]
      rfl
    refine ⟨place,sum,by rw [write_size]; exact covered,?_,fun i below => ?_⟩
    · rw [header,load_inside (by rw [write_size]; omega),stored_read,ofBytes_toBytes]
    · rw [write_outside (.inl below),initialised_memory,bytes]

theorem malloc_paged (made : Malloc heapBase n s p s') (paged : 0 < s.memory.pages) : 0 < s'.memory.pages := by
  cases made with
  | null => rw [initialised_memory]; exact paged
  | carved _ _ _ larger _ => rw [write_pages]; omega

theorem strcpy_done {d : U32} {bytes : List U8} {m : Memory} (inside : d.toNat + bytes.length + 1 ≤ m.size) :
    strcpy d bytes m = some (m.write d.toNat (bytes ++ [0])) := by
  induction bytes generalizing d m with
  | nil => exact store_byte (by simpa using inside)
  | cons b rest ih =>
    simp only [List.length_cons] at inside
    have room := size_addressable m
    have next : (d + 1).toNat = d.toNat + 1 := CInteger.add_exact (by simp; omega)
    have later := ih (d := d + 1) (m := m.write d.toNat [b]) (by rw [write_size,next]; omega)
    rw [strcpy,store_byte (by omega),Option.bind_eq_bind,Option.bind_some,List.cons_append,write_cons]
    rw [next] at later
    exact later

theorem roundUp_same (aligned : 16 ∣ n.toNat) (fits : n.toNat ≤ 0xFFFFFFF0) : roundUp n = n := by
  apply BitVec.eq_of_toNat_eq
  rw [roundUp_exact fits]
  omega

end

-- A file of fopen while it is filled: `done` is what has been read. Nothing lies
-- between the end of its block and heap_top that a later block could meet.
structure Filling (f : FILE) (s : Instance) (done : List U8) : Prop where
  reading : f.fd = -1 ∧ f.out = false ∧ f.pos = 0
  doubled : ∃ k, f.cap.toNat = 2 ^ (16 + k)
  length : f.len.toNat = done.length
  room : f.len.toNat ≤ f.cap.toNat
  unread : f.cap.toNat - f.len.toNat < 2 ^ 31
  above : 16 ≤ f.buf.toNat
  below : f.buf.toNat + f.cap.toNat ≤ s.heapTop.toNat
  covered : s.heapTop.toNat ≤ s.memory.size
  header : s.memory.load 4 (f.buf - 16).toNat = some f.cap
  stored : s.memory.read f.buf.toNat f.len.toNat = done

theorem growCap_doubles {cap : Nat} (positive : 0 < cap) :
    Stdio.growCap cap (cap + 1) = if cap > Stdio.sizeMax / 2 then none else some (cap * 2) := by
  rw [Stdio.growCap,if_pos ⟨positive,by omega⟩]
  split
  · rfl
  · rw [Stdio.growCap,if_neg (by omega)]

section
variable {heapBase : U32} {host : Host} {f : FILE} {s : Instance} {done : List U8}

-- A capacity is a power of two, so one that can be doubled is at most 2^30.
theorem Filling.doubling (filling : Filling f s done) (small : f.cap.toNat ≤ Stdio.sizeMax / 2) :
    f.cap.toNat ≤ 2 ^ 30 ∧ ∃ k, f.cap.toNat * 2 = 2 ^ (16 + k) := by
  obtain ⟨k,power⟩ := filling.doubled
  have below : 2 ^ (16 + k) < 2 ^ 31 := by
    rw [← power]
    simp only [Stdio.sizeMax] at small
    omega
  have exponent : 16 + k ≤ 30 := Nat.le_of_lt_succ ((Nat.pow_lt_pow_iff_right (by decide)).mp below)
  refine ⟨?_,k + 1,?_⟩
  · rw [power]
    exact Nat.pow_le_pow_right (by decide) exponent
  · rw [power,← Nat.add_assoc,Nat.pow_succ]

-- grow ends the program, or moves the file to a block of twice the size.
theorem grow_filling (filling : Filling f s done) (full : f.len = f.cap) :
    (∃ code, grow heapBase f (f.cap + 1) s = .exits code) ∨
      ∃ f' s', grow heapBase f (f.cap + 1) s = .returns f' s' ∧ Filling f' s' done ∧ f'.len.toNat < f'.cap.toNat := by
  have below := filling.below
  have covered := filling.covered
  have above := filling.above
  have top := s.heapTop.isLt
  have positive : 0 < f.cap.toNat := by
    obtain ⟨k,power⟩ := filling.doubled
    rw [power]
    exact Nat.pow_pos (by decide)
  have need : (f.cap + 1).toNat = f.cap.toNat + 1 := CInteger.add_exact (by simp; omega)
  have fitting : ¬f.cap + 1 < f.len := by
    rw [full,BitVec.lt_def,need]
    omega
  unfold grow
  rw [if_neg fitting,need,growCap_doubles positive]
  by_cases large : f.cap.toNat > Stdio.sizeMax / 2
  · exact .inl ⟨121,by rw [if_pos large]⟩
  obtain ⟨small,doubled⟩ := filling.doubling (Nat.not_lt.mp large)
  rw [if_neg large]
  dsimp only
  generalize twice : BitVec.ofNat 32 (f.cap.toNat * 2) = cap
  have size : cap.toNat = f.cap.toNat * 2 := by
    rw [← twice,BitVec.toNat_ofNat]
    omega
  have aligned : roundUp cap = cap := by
    obtain ⟨k,power⟩ := filling.doubled
    refine roundUp_same ?_ (by omega)
    rw [size,power,Nat.pow_add]
    omega
  have raised : s.heapTop ≠ 0 := by
    intro zero
    rw [zero] at below
    simp at below
    omega
  have paged : 0 < s.memory.pages := by
    simp only [Memory.size] at covered
    omega
  have nonzero : f.buf ≠ 0 := by
    intro zero
    rw [zero] at above
    simp at above
  have short : ¬cap ≤ f.cap := by
    rw [BitVec.le_def,size]
    omega
  obtain ⟨p,s',ran,made⟩ := malloc_parts heapBase (n := cap) (s := s) (by omega) paged
  by_cases zero : p = 0
  · subst zero
    rw [realloc_null nonzero filling.header short ran]
    exact .inl ⟨122,rfl⟩
  have carved := malloc_carved made zero
  have same : initialised heapBase s = s := if_neg raised
  rw [same] at carved
  obtain ⟨place,newTop,newCovered,newHeader,kept⟩ := carved
  rw [aligned] at newTop newHeader
  have copied : memcpy p f.buf f.cap s'.memory =
      some (s'.memory.write p.toNat (s'.memory.read f.buf.toNat f.cap.toNat)) :=
    memcpyLoop_apart (by omega) (by omega) (.inl (by omega))
  rw [realloc_moved nonzero filling.header short ran zero copied]
  dsimp only
  rw [if_neg zero]
  have length : f.len.toNat = f.cap.toNat := by rw [full]
  have above' : 16 ≤ p.toNat := by omega
  refine .inr ⟨_,_,rfl,⟨filling.reading,?_,filling.length,?_,?_,above',?_,?_,?_,?_⟩,?_⟩
  · obtain ⟨k,power⟩ := doubled
    exact ⟨k,by rw [size,power]⟩
  · show f.len.toNat ≤ cap.toNat
    omega
  · show cap.toNat - f.len.toNat < _
    omega
  · exact newTop.ge
  · rw [write_size]
    exact newCovered
  · have header : (p - 16).toNat = p.toNat - 16 := BitVec.toNat_sub_of_le (BitVec.le_def.mpr (by simp; omega))
    rw [header] at newHeader ⊢
    rw [load_inside (by rw [write_size]; omega),read_outside (.inl (by omega))]
    rw [load_inside (by omega)] at newHeader
    exact newHeader
  · have back : (s'.memory.write p.toNat (s'.memory.read f.buf.toNat f.cap.toNat)).read p.toNat
        (s'.memory.read f.buf.toNat f.cap.toNat).length = s'.memory.read f.buf.toNat f.cap.toNat := read_write
    rw [read_length] at back
    rw [length,back,← filling.stored,length]
    exact read_same fun i _ high => kept i (by omega)
  · show f.len.toNat < cap.toNat
    omega

-- What the loop leaves when it returns a file.
def Filled (input : List U8) : Outcome (Option FILE) → Prop
  | .returns (some f) s => Filling f s input ∧ f.len.toNat < f.cap.toNat
  | .returns none _ | .exits _ => True
  | .traps => False

-- What one read adds.
theorem read_filling (bytes : List U8) (filling : Filling f s done)
    (fits : bytes.length ≤ f.cap.toNat - f.len.toNat) :
    Filling {f with len := f.len + BitVec.ofInt 32 bytes.length}
      {s with memory := s.memory.write (f.buf + f.len).toNat bytes} (done ++ bytes) := by
  have below := filling.below
  have covered := filling.covered
  have above := filling.above
  have top := s.heapTop.isLt
  have room := filling.room
  have unread := filling.unread
  have count : (BitVec.ofInt 32 bytes.length).toNat = bytes.length := by
    rw [BitVec.ofInt_natCast,BitVec.toNat_ofNat]
    omega
  have length : (f.len + BitVec.ofInt 32 bytes.length).toNat = f.len.toNat + bytes.length := by
    rw [CInteger.add_exact (by rw [count]; omega),count]
  have place : (f.buf + f.len).toNat = f.buf.toNat + f.len.toNat := CInteger.add_exact (by omega)
  have header : (f.buf - 16).toNat = f.buf.toNat - 16 := BitVec.toNat_sub_of_le (BitVec.le_def.mpr (by simp; omega))
  refine ⟨filling.reading,filling.doubled,?_,?_,?_,above,below,?_,?_,?_⟩
  · show (f.len + BitVec.ofInt 32 bytes.length).toNat = _
    rw [length,filling.length,List.length_append]
  · show (f.len + BitVec.ofInt 32 bytes.length).toNat ≤ f.cap.toNat
    omega
  · show f.cap.toNat - (f.len + BitVec.ofInt 32 bytes.length).toNat < _
    omega
  · show s.heapTop.toNat ≤ (s.memory.write _ bytes).size
    rw [write_size]
    exact covered
  · have recorded := filling.header
    show (s.memory.write _ bytes).load 4 (f.buf - 16).toNat = some f.cap
    rw [header] at recorded ⊢
    rw [load_inside (by omega)] at recorded
    rw [load_inside (by rw [write_size]; omega),read_outside (.inl (by omega))]
    exact recorded
  · show (s.memory.write _ bytes).read f.buf.toNat (f.len + BitVec.ofInt 32 bytes.length).toNat = _
    rw [length,place,read_append,read_write,read_outside (.inl (Nat.le_refl _)),filling.stored]

theorem room_filling (heapBase : U32) (filling : Filling f s done) :
    (∃ code, (if f.len = f.cap then grow heapBase f (f.cap + 1) s else .returns f s) = .exits code) ∨
      ∃ f' s', (if f.len = f.cap then grow heapBase f (f.cap + 1) s else .returns f s) = .returns f' s' ∧
        Filling f' s' done ∧ f'.len.toNat < f'.cap.toNat := by
  by_cases full : f.len = f.cap
  · rw [if_pos full]
    exact grow_filling filling full
  · rw [if_neg full]
    exact .inr ⟨f,s,rfl,filling,Nat.lt_of_le_of_ne filling.room fun same => full (BitVec.eq_of_toNat_eq same)⟩

theorem slurp_filled (reads : Nat) (rest : List U8) (filling : Filling f s done) :
    Filled (done ++ rest) (slurp heapBase host f s reads rest) := by
  induction remaining : rest.length using Nat.strong_induction_on generalizing f s done reads rest with
  | _ left ih =>
    rw [slurp]
    obtain ⟨code,ended⟩ | ⟨f',s',started,filling',less⟩ := room_filling heapBase filling
    · rw [ended]
      trivial
    rw [started]
    dsimp only
    have ⟨below,covered,above⟩ := (⟨filling'.below,filling'.covered,filling'.above⟩ : _ ∧ _ ∧ _)
    have unread := filling'.unread
    have top := s'.heapTop.isLt
    have place : (f'.buf + f'.len).toNat = f'.buf.toNat + f'.len.toNat := CInteger.add_exact (by omega)
    have asked : (f'.cap - f'.len).toNat = f'.cap.toNat - f'.len.toNat :=
      BitVec.toNat_sub_of_le (BitVec.le_def.mpr (Nat.le_of_lt less))
    have signed : (f'.cap - f'.len).toInt = f'.cap.toNat - f'.len.toNat := by
      rw [BitVec.toInt_eq_toNat_of_lt (by omega),asked]
      omega
    rw [if_neg (by rw [place,asked]; omega)]
    have within := host.within reads (f'.cap - f'.len).toInt rest.length
    obtain ⟨few,ended⟩ := host.short reads (f'.cap - f'.len).toInt rest.length (by omega)
    generalize host.answer reads (f'.cap - f'.len).toInt rest.length = n at within few ended
    by_cases failed : n < 0
    · rw [if_pos failed]
      trivial
    rw [if_neg failed]
    by_cases last : n = 0
    · subst last
      have nothing : rest = [] := by
        by_contra more
        exact ended (List.length_pos_iff.mpr more) rfl
      subst nothing
      rw [if_pos rfl,List.append_nil]
      exact ⟨filling',less⟩
    rw [if_neg last]
    have taken : (rest.take n.toNat).length = n.toNat := List.length_take_of_le (by omega)
    have added := read_filling (rest.take n.toNat) filling' (by omega)
    have count : ((rest.take n.toNat).length : Int) = n := by omega
    rw [count] at added
    have later := ih (rest.drop n.toNat).length (by simp only [List.length_drop]; omega) (reads + 1) _ added rfl
    rw [List.append_assoc,List.take_append_drop] at later
    exact later

-- What calloc leaves of the memory: it is grown at most, and still in use.
theorem calloc_object (heapBase : U32) (paged : 0 < s.memory.pages) :
    ∃ p s', calloc heapBase 1 28 s = some (p,s') ∧ 0 < s'.memory.pages := by
  have product : (1 * 28 : U32) = 28 := rfl
  obtain ⟨p,s',ran,made⟩ := malloc_parts heapBase (n := 28) (s := s) (by decide) paged
  have still := malloc_paged made paged
  by_cases zero : p = 0
  · subst zero
    exact ⟨0,s',calloc_null (by decide) ran,still⟩
  · obtain ⟨room,_,_⟩ := malloc_room made zero (by decide)
    have cleared : memset p 0 (1 * 28) s'.memory = some (s'.memory.write p.toNat (List.replicate 28 0)) :=
      memsetLoop_inside room
    exact ⟨p,_,calloc_done (by decide) ran zero cleared,by rw [write_pages]; exact still⟩

theorem fopen_filled (heapBase : U32) (host : Host) {path mode : List U8} (input : List U8) (paged : 0 < s.memory.pages)
    (fits : (Stdio.cString path).length < 0xFFFFFFE0) (reading : mode.head? = some 114) :
    Filled input (fopen heapBase host path mode input s) := by
  obtain ⟨object,one,allocated,pagedOne⟩ := calloc_object heapBase paged
  simp only [fopen,allocated]
  by_cases none : object = 0
  · rw [if_pos none]
    trivial
  rw [if_neg none]
  generalize asked : BitVec.ofNat 32 ((Stdio.cString path).length + 1) = n
  have size : n.toNat = (Stdio.cString path).length + 1 := by
    rw [← asked,BitVec.toNat_ofNat]
    omega
  obtain ⟨name,two,ranName,madeName⟩ := malloc_parts heapBase (n := n) (s := one) (by omega) pagedOne
  obtain ⟨buf,three,ranBuf,madeBuf⟩ :=
    malloc_parts heapBase (n := 65536) (s := two) (by decide) (malloc_paged madeName pagedOne)
  simp only [ranName,ranBuf]
  by_cases either : name = 0 ∨ buf = 0
  · rw [if_pos either]
    trivial
  rw [if_neg either]
  obtain ⟨named,buffered⟩ := not_or.mp either
  have first := malloc_carved madeName named
  have ⟨placeName,topName,coveredName,_,_⟩ := first
  have raised : two.heapTop ≠ 0 := by
    intro zero
    rw [zero] at topName
    simp at topName
    omega
  have second := malloc_carved madeBuf buffered
  rw [show initialised heapBase two = two from if_neg raised] at second
  have ⟨placeBuf,topBuf,coveredBuf,headerBuf,_⟩ := second
  have rounded : roundUp (65536 : U32) = 65536 := by decide
  have whole := roundUp_exact (n := n) (by omega)
  rw [rounded] at topBuf headerBuf
  have capacity : (65536 : U32).toNat = 65536 := rfl
  simp only [strcpy_done (show name.toNat + (Stdio.cString path).length + 1 ≤ three.memory.size by omega)]
  rw [if_pos reading]
  refine @slurp_filled _ _ _ _ [] 0 input ⟨⟨rfl,rfl,rfl⟩,⟨0,rfl⟩,rfl,by simp,by simp,?_,?_,?_,?_,rfl⟩
  · show 16 ≤ buf.toNat
    omega
  · exact topBuf.ge
  · show three.heapTop.toNat ≤ (three.memory.write _ _).size
    rw [write_size]
    exact coveredBuf
  · have header : (buf - 16).toNat = buf.toNat - 16 := BitVec.toNat_sub_of_le (BitVec.le_def.mpr (by simp; omega))
    show (three.memory.write name.toNat _).load 4 (buf - 16).toNat = some 65536
    rw [header] at headerBuf ⊢
    rw [load_inside (by omega)] at headerBuf
    have written : (Stdio.cString path ++ [0]).length = (Stdio.cString path).length + 1 := List.length_append
    rw [load_inside (by rw [write_size]; omega),read_outside (.inr (by omega))]
    exact headerBuf

end

-- The reference: a file that is its bytes and a position.
structure MemoryFile where
  contents : List U8
  position : Nat

def MemoryFile.delivered (r : MemoryFile) (total : Nat) : List U8 := (r.contents.drop r.position).take total

def MemoryFile.base (r : MemoryFile) (whence : BitVec 32) : Option Nat :=
  if whence = 0 then some 0 else if whence = 1 then some r.position
  else if whence = 2 then some r.contents.length else none

def MemoryFile.seek (r : MemoryFile) (off : Int) (whence : BitVec 32) : Int × MemoryFile :=
  match r.base whence with
  | none => (-1,r)
  | some base => if base + off < 0 then (-1,r) else (0,{r with position := (base + off).toNat})

-- A read puts what it delivers at p and answers with the elements that are whole.
def MemoryFile.step (r : MemoryFile) (m : Memory) : Op → Answer × MemoryFile × Memory
  | .fread p sz n =>
    let bytes := r.delivered (sz.toNat * n.toNat)
    (.size (bytes.length / sz.toNat),{r with position := r.position + bytes.length},m.write p.toNat bytes)
  | .fseek off whence => (.signed (r.seek off.toInt whence).1,(r.seek off.toInt whence).2,m)
  | .ftell => (.signed r.position,r,m)
  | .rewind => (.nothing,{r with position := 0},m)

def MemoryFile.run (r : MemoryFile) (m : Memory) : List Op → List Answer × MemoryFile × Memory
  | [] => ([],r,m)
  | op :: ops =>
    let (answer,r,m) := r.step m op
    let (answers,r,m) := MemoryFile.run r m ops
    (answer :: answers,r,m)

-- A call C defines: the element size times the count and the sum of an offset do
-- not wrap, and a read has an object of that size, apart from the file's.
def Legal (buf cap : U32) (r : MemoryFile) (m : Memory) : Op → Prop
  | .fread p sz n => sz.toNat * n.toNat < 2 ^ 32 ∧ ∀ i < sz.toNat * n.toNat, p.toNat + i < m.size ∧
      (p.toNat + i < buf.toNat ∨ buf.toNat + cap.toNat ≤ p.toNat + i)
  | .fseek off whence => ∀ base ∈ r.base whence, base + off.toInt < 2 ^ 31
  | .ftell | .rewind => True

def AllLegal (buf cap : U32) (r : MemoryFile) (m : Memory) : List Op → Prop
  | [] => True
  | op :: ops => Legal buf cap r m op ∧ AllLegal buf cap (r.step m op).2.1 (r.step m op).2.2 ops

structure Represents (f : FILE) (m : Memory) (r : MemoryFile) : Prop where
  reading : f.fd = -1 ∧ f.out = false
  length : f.len.toNat = r.contents.length
  position : f.pos.toNat = r.position
  bounded : f.len.toNat < 2 ^ 31 ∧ f.pos.toNat < 2 ^ 31
  room : f.len.toNat ≤ f.cap.toNat
  inside : f.buf.toNat + f.cap.toNat ≤ m.size
  stored : m.read f.buf.toNat f.len.toNat = r.contents

-- The call left the block of the file where it was.
def SameBlock (f f' : FILE) : Prop := f'.buf = f.buf ∧ f'.cap = f.cap

section
variable {f : FILE} {m : Memory} {r : MemoryFile} {p sz n : U32} {off whence : BitVec 32}

theorem filled_represents {s : Instance} {input : List U8} (filling : Filling f s input)
    (ended : f.len.toNat < f.cap.toNat) : Represents f s.memory ⟨input,0⟩ := by
  obtain ⟨k,power⟩ := filling.doubled
  have width := f.cap.isLt
  rw [power] at width
  have exponent : 16 + k ≤ 31 := Nat.le_of_lt_succ ((Nat.pow_lt_pow_iff_right (by decide)).mp width)
  have capacity : 2 ^ (16 + k) ≤ 2 ^ 31 := Nat.pow_le_pow_right (by decide) exponent
  refine ⟨⟨filling.reading.1,filling.reading.2.1⟩,filling.length,?_,⟨by omega,?_⟩,filling.room,?_,filling.stored⟩
  · rw [filling.reading.2.2]
    rfl
  · rw [filling.reading.2.2]
    decide
  · exact Nat.le_trans filling.below filling.covered

-- What a read delivers lies in the stored bytes.
theorem delivered_read (same : Represents f m r) (total : Nat) (inside : f.pos.toNat ≤ f.len.toNat) :
    r.delivered total = m.read (f.buf.toNat + f.pos.toNat) (min total (f.len.toNat - f.pos.toNat)) := by
  rw [MemoryFile.delivered,← same.stored,← same.position]
  exact read_part inside

theorem delivered_none (same : Represents f m r) {total : Nat} (nothing : total = 0 ∨ f.len.toNat ≤ f.pos.toNat) :
    r.delivered total = [] := by
  rcases nothing with rfl | past
  · exact List.take_zero
  · rw [MemoryFile.delivered,List.drop_of_length_le (by rw [← same.length,← same.position]; exact past),List.take_nil]

theorem clipped_min (total : U32) (inside : f.pos.toNat ≤ f.len.toNat) :
    (clipped f total).toNat = min total.toNat (f.len.toNat - f.pos.toNat) := by
  have left : (f.len - f.pos).toNat = f.len.toNat - f.pos.toNat := BitVec.toNat_sub_of_le (BitVec.le_def.mpr inside)
  unfold clipped
  split
  · rename_i above
    rw [GT.gt,BitVec.lt_def,left] at above
    omega
  · rename_i enough
    rw [GT.gt,BitVec.lt_def,left] at enough
    omega

theorem fread_represents (same : Represents f m r) (legal : Legal f.buf f.cap r m (.fread p sz n)) :
    ∃ f' m', step f m (.fread p sz n) = some ((r.step m (.fread p sz n)).1,f',m') ∧
      m' = (r.step m (.fread p sz n)).2.2 ∧ SameBlock f f' ∧ Represents f' m' (r.step m (.fread p sz n)).2.1 := by
  obtain ⟨fits,object⟩ := legal
  have product : (sz * n).toNat = sz.toNat * n.toNat := CInteger.mul_exact fits
  have ⟨inside,room,bounded⟩ := (⟨same.inside,same.room,same.bounded⟩ : _ ∧ _ ∧ _)
  have addressable := size_addressable m
  by_cases idle : (sz = 0 ∨ n = 0) ∨ f.pos ≥ f.len
  · have nothing : r.delivered (sz.toNat * n.toNat) = [] := by
      refine delivered_none same (idle.imp (fun zero => ?_) fun past => past)
      rcases zero with rfl | rfl <;> simp
    have refused : fread p sz n f m = some (0,f,m) := if_pos (.inr (.inr (or_assoc.mp idle)))
    refine ⟨f,m,?_,?_,⟨rfl,rfl⟩,?_⟩
    · simp [step,refused,MemoryFile.step,nothing]
    · simp [MemoryFile.step,nothing,Memory.write]
    · simpa [MemoryFile.step,nothing] using same
  obtain ⟨used,ahead⟩ := not_or.mp idle
  have before : f.pos.toNat < f.len.toNat := Nat.not_le.mp ahead
  have busy : ¬((0 : BitVec 32).sle f.fd = true ∨ f.out = true ∨ sz = 0 ∨ n = 0 ∨ f.pos ≥ f.len) := by
    rintro (negative | output | rest)
    · rw [same.reading.1] at negative
      exact absurd negative (by decide)
    · rw [same.reading.2] at output
      cases output
    · exact idle (or_assoc.mpr rest)
  have least := clipped_min (sz * n) (Nat.le_of_lt before)
  rw [product] at least
  have bytes := delivered_read same (sz.toNat * n.toNat) (Nat.le_of_lt before)
  rw [← least] at bytes
  generalize clipping : clipped f (sz * n) = count at least bytes
  have source : (f.buf + f.pos).toNat = f.buf.toNat + f.pos.toNat := CInteger.add_exact (by omega)
  have positive : 0 < sz.toNat * n.toNat := by
    obtain ⟨one,two⟩ := not_or.mp used
    exact Nat.mul_pos (Nat.pos_of_ne_zero fun zero => one (BitVec.eq_of_toNat_eq zero))
      (Nat.pos_of_ne_zero fun zero => two (BitVec.eq_of_toNat_eq zero))
  have room' : p.toNat + count.toNat ≤ m.size := by
    have last := (object (count.toNat - 1) (by omega)).1
    omega
  -- two ranges that overlap share the first byte of one of them
  have apart : f.buf.toNat + f.pos.toNat + count.toNat ≤ p.toNat ∨
      p.toNat + count.toNat ≤ f.buf.toNat + f.pos.toNat := by
    by_contra overlap
    rcases Nat.le_total (f.buf.toNat + f.pos.toNat) p.toNat with low | high
    · have first := (object 0 positive).2
      omega
    · have first := (object (f.buf.toNat + f.pos.toNat - p.toNat) (by omega)).2
      omega
  have copied : memcpy p (f.buf + f.pos) count m =
      some (m.write p.toNat (m.read (f.buf.toNat + f.pos.toNat) count.toNat)) := by
    rw [← source]
    exact memcpyLoop_apart room' (by omega) (by omega)
  have done : fread p sz n f m = some (count / sz,{f with pos := f.pos + count},
      m.write p.toNat (m.read (f.buf.toNat + f.pos.toNat) count.toNat)) := by
    unfold fread
    rw [if_neg busy,clipping]
    dsimp only
    rw [copied]
    rfl
  have moved : (f.pos + count).toNat = f.pos.toNat + count.toNat := CInteger.add_exact (by omega)
  refine ⟨{f with pos := f.pos + count},m.write p.toNat (m.read (f.buf.toNat + f.pos.toNat) count.toNat),?_,?_,
    ⟨rfl,rfl⟩,?_⟩
  · simp [step,done,MemoryFile.step,bytes,BitVec.toNat_udiv]
  · simp [MemoryFile.step,bytes]
  · have untouched : ∀ i, f.buf.toNat ≤ i → i < f.buf.toNat + f.len.toNat →
        i < p.toNat ∨ p.toNat + count.toNat ≤ i := by
      intro i low high
      by_contra within
      have first := (object (i - p.toNat) (by omega)).2
      omega
    refine ⟨same.reading,same.length,?_,⟨bounded.1,?_⟩,room,by rw [write_size]; exact inside,?_⟩
    · simp [MemoryFile.step,bytes,moved,same.position]
    · show (f.pos + count).toNat < _
      omega
    · refine (read_same fun i low high => write_outside ?_).trans same.stored
      rw [read_length]
      exact untouched i low high

theorem seek_base (whence : BitVec 32) (same : Represents f m r) :
    (r.base whence = none ∧
      (if whence = 0 then 0 else if whence = 1 then f.pos else if whence = 2 then f.len else -1) = -1) ∨
    ∃ base, r.base whence = some base.toNat ∧ base.toNat < 2 ^ 31 ∧
      (if whence = 0 then 0 else if whence = 1 then f.pos else if whence = 2 then f.len else -1) = base := by
  have bounded := same.bounded
  unfold MemoryFile.base
  by_cases set : whence = 0
  · rw [if_pos set,if_pos set]
    exact .inr ⟨0,rfl,by decide,rfl⟩
  by_cases current : whence = 1
  · rw [if_neg set,if_neg set,if_pos current,if_pos current]
    exact .inr ⟨f.pos,by rw [same.position],bounded.2,rfl⟩
  rw [if_neg set,if_neg set,if_neg current,if_neg current]
  by_cases last : whence = 2
  · rw [if_pos last,if_pos last]
    exact .inr ⟨f.len,by rw [same.length],bounded.1,rfl⟩
  · rw [if_neg last,if_neg last]
    exact .inl ⟨rfl,rfl⟩

theorem fseek_represents (same : Represents f m r) (legal : Legal f.buf f.cap r m (.fseek off whence)) :
    (fseek off whence f).1.toInt = (r.seek off.toInt whence).1 ∧ SameBlock f (fseek off whence f).2 ∧
      Represents (fseek off whence f).2 m (r.seek off.toInt whence).2 := by
  unfold fseek MemoryFile.seek
  dsimp only
  obtain ⟨unknown,refused⟩ | ⟨base,known,small,chosen⟩ := seek_base whence same
  · rw [unknown,refused,if_pos (.inl (by decide))]
    exact ⟨rfl,⟨rfl,rfl⟩,same⟩
  have limit := legal _ known
  rw [known,chosen]
  dsimp only
  have offset := BitVec.toInt_lt (x := off)
  have offset' := BitVec.le_toInt (x := off)
  have plain : base.toInt = base.toNat := BitVec.toInt_eq_toNat_of_lt (by omega)
  have sum : (base + off).toInt = base.toNat + off.toInt := by
    rw [BitVec.toInt_add,plain]
    exact Int.bmod_eq_of_le_mul_two (by omega) (by omega)
  by_cases negative : (base.toNat : Int) + off.toInt < 0
  · have below : (base + off).slt 0 = true := by
      rw [BitVec.slt_iff_toInt_lt,sum]
      exact negative
    rw [if_pos (.inr below),if_pos negative]
    exact ⟨rfl,⟨rfl,rfl⟩,same⟩
  · have above : ¬(base.slt 0 = true ∨ (base + off).slt 0 = true) := by
      rw [BitVec.slt_iff_toInt_lt,BitVec.slt_iff_toInt_lt,sum,plain]
      simp
      omega
    have target : (base + off).toNat = ((base.toNat : Int) + off.toInt).toNat := by
      have value := BitVec.toInt_eq_toNat_cond (base + off)
      have width := (base + off).isLt
      rw [sum] at value
      split at value
      · omega
      · omega
    rw [if_neg above,if_neg negative]
    refine ⟨rfl,⟨rfl,rfl⟩,⟨same.reading,same.length,target,⟨same.bounded.1,?_⟩,same.room,same.inside,same.stored⟩⟩
    show (base + off).toNat < _
    omega

theorem step_represents {op : Op} (same : Represents f m r) (legal : Legal f.buf f.cap r m op) :
    ∃ f', step f m op = some ((r.step m op).1,f',(r.step m op).2.2) ∧ SameBlock f f' ∧
      Represents f' (r.step m op).2.2 (r.step m op).2.1 := by
  cases op with
  | fread p sz n =>
    obtain ⟨f',m',ran,rfl,block,next⟩ := fread_represents same legal
    exact ⟨f',ran,block,next⟩
  | fseek off whence =>
    obtain ⟨answer,block,next⟩ := fseek_represents same legal
    exact ⟨(fseek off whence f).2,by rw [step,answer]; rfl,block,next⟩
  | ftell =>
    have value : (ftell f).toInt = r.position := by
      rw [ftell,BitVec.toInt_eq_toNat_of_lt (by have small := same.bounded.2; omega),same.position]
    exact ⟨f,by rw [step,value]; rfl,⟨rfl,rfl⟩,same⟩
  | rewind =>
    exact ⟨rewind f,rfl,⟨rfl,rfl⟩,⟨same.reading,same.length,rfl,⟨same.bounded.1,by simp [rewind]⟩,same.room,
      same.inside,same.stored⟩⟩

theorem run_represents {ops : List Op} (same : Represents f m r) (legal : AllLegal f.buf f.cap r m ops) :
    ∃ f', run f m ops = some ((r.run m ops).1,f',(r.run m ops).2.2) ∧
      Represents f' (r.run m ops).2.2 (r.run m ops).2.1 := by
  induction ops generalizing f m r with
  | nil => exact ⟨f,rfl,same⟩
  | cons op ops ih =>
    obtain ⟨now,later⟩ := legal
    obtain ⟨f',ran,⟨buf,cap⟩,next⟩ := step_represents same now
    rw [← buf,← cap] at later
    obtain ⟨f'',rest,last⟩ := ih next later
    refine ⟨f'',?_,last⟩
    rw [run,ran]
    show (run f' (r.step m op).2.2 ops >>= _) = _
    rw [rest]
    rfl

-- A failing fseek changes nothing.
theorem fseek_failed (failed : (fseek off whence f).1 ≠ 0) : (fseek off whence f).2 = f := by
  unfold fseek at failed ⊢
  dsimp only at failed ⊢
  generalize (if whence = 0 then (0 : BitVec 32) else if whence = 1 then f.pos
    else if whence = 2 then f.len else -1) = base at failed ⊢
  by_cases refused : base.slt 0 = true ∨ (base + off).slt 0 = true
  · rw [if_pos refused]
  · rw [if_neg refused] at failed
    exact absurd rfl failed

end

-- What fread hands to memcpy, from the position on, is stored.
def Confined (f : FILE) : Prop := ∀ total, f.pos < f.len → f.pos.toNat + (clipped f total).toNat ≤ f.len.toNat

theorem fread_confined {f : FILE} : Confined f := by
  intro total before
  rw [clipped_min total (Nat.le_of_lt before)]
  have less : f.pos.toNat < f.len.toNat := before
  omega

namespace Controls

-- A host that hands out two bytes at a time.
def twoByTwo : Host where
  answer _ n left := min (min n 2) left
  within _ n left := min_le_right _ _
  short _ n left positive := ⟨(min_le_left _ _).trans (min_le_left _ _),by omega⟩

def fourPages : Instance := ⟨⟨fun _ => 0,4,4,Nat.le_refl _,by decide⟩,0⟩

-- Where the buffer of an opened file is, its capacity and the size of the memory.
def opened : Outcome (Option FILE) → Option (Nat × Nat × Nat)
  | .returns (some f) s => some (f.buf.toNat,f.cap.toNat,s.memory.size)
  | .returns none _ | .exits _ | .traps => none

theorem opened_parts {o : Outcome (Option FILE)} {place : Nat × Nat × Nat} (there : opened o = some place) :
    ∃ f s, o = .returns (some f) s ∧ (f.buf.toNat,f.cap.toNat,s.memory.size) = place := by
  cases o with
  | returns file s =>
    cases file with
    | none => cases there
    | some f => exact ⟨f,s,rfl,Option.some.inj there⟩
  | exits code => cases there
  | traps => cases there

-- Two bytes, back over the last one, two bytes, and where that is.
def rereading : List Op := [.fread 200000 1 2,.fseek (-1) 1,.fread 200002 1 2,.ftell]

end Controls

end SandboxStack.InputFiles
