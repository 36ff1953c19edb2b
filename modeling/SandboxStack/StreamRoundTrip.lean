import SandboxStack.OutputFiles

namespace SandboxStack.Stdio
open NumberText

-- What the files are for: a name and the bytes written so far, and in the order
-- of closing the files that are closed.
structure Stream where
  name : List Byte
  contents : List Byte
  isOpen : Bool

structure Streams where
  files : List Stream
  closed : List (List Byte × List Byte)

def Streams.start : Streams := ⟨[],[]⟩

-- The contents and the bytes to add are separate objects of one 32-bit memory.
def Streams.append (s : Streams) (file : Nat) (bytes : List Byte) : Option Streams :=
  match s.files[file]? with
  | none => none
  | some stream =>
    if stream.isOpen ∧ stream.contents.length + bytes.length < 2 ^ 32 then
      some {s with files := s.files.set file {stream with contents := stream.contents ++ bytes}}
    else none

-- The uses that keep to the interface: strings end at their first 0, arrays have the
-- length they are said to have, names have no newline, headers fit their buffer
-- and each file is closed once, when nothing is written to it any more.
def Streams.step (s : Streams) : Op → Option Streams
  | .fopen path => if 10 ∉ path ∧ 0 ∉ path then some {s with files := s.files ++ [⟨path,[],true⟩]} else none
  | .fwrite p sz n file => if p.length = sz * n then s.append file p else none
  | .fputc c file => s.append file [c]
  | .fputs p file => if 0 ∉ p then s.append file p else none
  | .fprintf fmt args file =>
    if (format (cString fmt) args).2 then s.append file (format (cString fmt) args).1.flatten else none
  | .fclose file =>
    match s.files[file]? with
    | none => none
    | some stream =>
      if stream.isOpen ∧ (header stream.name stream.contents.length).length < 64 then
        some ⟨s.files.set file {stream with isOpen := false},s.closed ++ [(stream.name,stream.contents)]⟩
      else none

def Streams.run (s : Streams) : List Op → Option Streams
  | [] => some s
  | op :: rest => do
    let s ← s.step op
    run s rest

-- A file holds what was written to it.
structure Holds (f : FILE) (stream : Stream) : Prop where
  name : f.name = stream.name
  contents : f.contents = stream.contents
  room : f.len ≤ f.cap
  started : 65536 ≤ f.cap
  plain : 10 ∉ f.name ∧ 0 ∉ f.name
  bounded : f.len < 2 ^ 32

structure Refines (g : Guest) (s : Streams) : Prop where
  files : List.Forall₂ Holds g.files s.files
  stdout : g.stdout = s.closed.flatMap fun r => record r.1 r.2
  plain : ∀ r ∈ s.closed, 10 ∉ r.1

section
variable {host : Host} {f f' : FILE} {g : Guest} {stream : Stream} {s s' : Streams}

theorem FILE.contents_length : f.contents.length = f.len := by simp [FILE.contents]

theorem writeAll_parts (host : Host) (p : List Byte) (running : g.exited = none) :
    (g.writeAll host p).stdout = g.stdout ++ p ∧ (g.writeAll host p).exited = none ∧
      (g.writeAll host p).files = g.files ∧ (g.writeAll host p).executed = g.executed := by
  fun_induction Guest.writeAll host g p with
  | case1 g => simp [running]
  | case2 g p nonempty w failed =>
    have some_left := List.length_pos_iff.mpr nonempty
    exact absurd failed (Int.not_le.mpr (host.short g.writes p.length some_left).1)
  | case3 g p nonempty w positive ih =>
    obtain ⟨out,exited,files,executed⟩ := ih running
    refine ⟨?_,exited,files,executed⟩
    rw [out,List.append_assoc,List.take_append_drop]

theorem growCap_enough {cap need cap' : Nat} (grown : growCap cap need = some cap') (positive : 0 < cap) :
    need ≤ cap' ∧ cap ≤ cap' := by
  fun_induction growCap cap need with
  | case1 cap less large => cases grown
  | case2 cap less _ ih =>
    have later := ih grown (by omega)
    omega
  | case3 cap enough =>
    cases grown
    omega

-- Growing moves the block but keeps what is in it.
structure Kept (f f' : FILE) (need : Nat) : Prop where
  name : f'.name = f.name
  len : f'.len = f.len
  enough : need ≤ f'.cap
  room : f.cap ≤ f'.cap
  bytes : ∀ i < f.cap, f'.buf i = f.buf i

theorem reserve_kept {need : Nat} (made : reserve host f need = .ok f') (positive : 0 < f.cap) : Kept f f' need := by
  unfold reserve at made
  split at made
  · unfold grow at made
    split at made
    · cases made
    · cases grown : growCap f.cap need with
      | none => simp [grown] at made
      | some cap =>
        simp only [grown,Except.ok.injEq] at made
        subst made
        obtain ⟨enough,room⟩ := growCap_enough grown positive
        exact ⟨rfl,rfl,enough,room,fun i inside => if_pos inside⟩
  · rename_i within
    cases made
    exact ⟨rfl,rfl,Nat.not_lt.mp within,Nat.le_refl _,fun _ _ => rfl⟩

theorem fwrite_holds {p : List Byte} {sz n : Nat} (holds : Holds f stream) (made : fwrite host p sz n f = .ok f')
    (array : p.length = sz * n) (fits : stream.contents.length + p.length < 2 ^ 32) :
    Holds f' {stream with contents := stream.contents ++ p} := by
  have length : stream.contents.length = f.len := by rw [← holds.contents,FILE.contents_length]
  have whole : size (sz * n) = p.length := by
    rw [← array]
    exact Nat.mod_eq_of_lt (by omega)
  have sum : size (f.len + p.length) = f.len + p.length := Nat.mod_eq_of_lt (by omega)
  unfold fwrite at made
  dsimp only at made
  rw [whole,sum] at made
  cases reserved : reserve host f (f.len + p.length) with
  | error code => rw [reserved] at made; cases made
  | ok middle =>
    have kept := reserve_kept reserved (Nat.lt_of_lt_of_le (by decide) holds.started)
    simp only [reserved,bind,Except.bind,pure,Except.pure,kept.len,sum,Except.ok.injEq] at made
    subst made
    refine ⟨kept.name.trans holds.name,?_,kept.enough,?_,?_,?_⟩
    · have old : ∀ i ∈ List.range f.len,
          (if f.len ≤ i ∧ i < f.len + p.length then p.getD (i - f.len) 0 else middle.buf i) = f.buf i := by
        intro i member
        have inside := List.mem_range.mp member
        rw [if_neg (by omega)]
        exact kept.bytes i (Nat.lt_of_lt_of_le inside holds.room)
      have new : (List.range p.length).map (fun j => if f.len ≤ f.len + j ∧ f.len + j < f.len + p.length then
          p.getD (f.len + j - f.len) 0 else middle.buf (f.len + j)) = p := by
        refine List.ext_getElem (by simp) fun j inside _ => ?_
        have within : j < p.length := by simpa using inside
        simp [within]
      show (List.range (f.len + p.length)).map _ = _
      rw [List.range_add,List.map_append,List.map_map,List.map_congr_left old,← holds.contents]
      exact congrArg (f.contents ++ ·) new
    · exact holds.started.trans kept.room
    · rw [kept.name]
      exact holds.plain
    · exact length ▸ fits

theorem fprintf_pieces {pieces : List (List Byte)} (holds : Holds f stream) (made : putAll host f pieces = .ok f')
    (fits : stream.contents.length + pieces.flatten.length < 2 ^ 32) :
    Holds f' {stream with contents := stream.contents ++ pieces.flatten} := by
  induction pieces generalizing f stream with
  | nil =>
    cases made
    simpa using holds
  | cons piece rest ih =>
    rw [List.flatten_cons,List.length_append] at fits
    cases one : fwrite host piece 1 piece.length f with
    | error code => simp [putAll,one,bind,Except.bind] at made
    | ok middle =>
      simp only [putAll,one,bind,Except.bind] at made
      have first := fwrite_holds holds one (Nat.one_mul _).symm (by omega)
      have later := ih first made (by simp only [List.length_append]; omega)
      simpa using later

end

section
variable {fmt after : List Byte} {args args' : List Arg}

theorem format_end : format [] args = ([],true) := by rw [format]

theorem format_plain {b : Byte} {run : List Byte} (other : b ≠ 37) (plain : 37 ∉ run) :
    format (b :: run ++ 37 :: after) args =
      ((b :: run) :: (format (37 :: after) args).1,(format (37 :: after) args).2) := by
  have parts := until_delimiter after plain
  rw [List.cons_append,format.eq_def]
  simp only [other,ne_eq,not_false_eq_true,if_true,parts.1,parts.2]

theorem format_last {b : Byte} {run : List Byte} (other : b ≠ 37) (plain : 37 ∉ run) :
    format (b :: run) args = ([b :: run],true) := by
  have whole : run.takeWhile (· ≠ 37) = run := List.takeWhile_eq_self_iff.mpr fun c member =>
    decide_eq_true fun same => plain (same ▸ member)
  have nothing : run.dropWhile (· ≠ 37) = [] := List.dropWhile_eq_nil_iff.mpr fun c member =>
    decide_eq_true fun same => plain (same ▸ member)
  rw [format.eq_def]
  simp only [other,ne_eq,not_false_eq_true,if_true,whole,nothing,format_end]

theorem format_conversion {spec : Spec} {c : Byte} {rest : List Byte} {body : Body} (read : readSpec rest = (spec,c :: after))
    (converted : convert spec (Char.ofNat c.toNat) args = some (body,args')) :
    format (37 :: rest) args = (layout spec body ++ (format after args').1,(format after args').2) := by
  rw [format.eq_def]
  simp only [ne_eq,not_true_eq_false,if_false]
  split
  · rename_i nothing
    rw [read] at nothing
    cases nothing
  · rename_i c' after' more
    rw [read] at more
    cases more
    simp only [read,converted]

end

theorem layout_whole (bytes : List Byte) (longs : Nat) : (layout ⟨false,false,0,none,longs⟩ ⟨false,bytes⟩).flatten = bytes := by
  simp [layout]

theorem cString_plain {bytes : List Byte} (plain : 0 ∉ bytes) : cString bytes = bytes :=
  List.takeWhile_eq_self_iff.mpr fun _ member => decide_eq_true fun zero => plain (zero ▸ member)

-- The header that fclose prints.
theorem sprintf_header {name : List Byte} {n : Nat} (plain : 0 ∉ name) (bounded : n < 2 ^ 32) :
    sprintf (text "@@FILE %s %lu\n".toList) [.string (some name),.int (BitVec.ofNat 32 n)] = header name n := by
  have whole : cString (text "@@FILE %s %lu\n".toList) = 64 :: text "@FILE ".toList ++ 37 :: text "s %lu\n".toList := by decide
  have number : (BitVec.ofNat 32 n).toNat = n := by
    rw [BitVec.toNat_ofNat]
    exact Nat.mod_eq_of_lt bounded
  generalize BitVec.ofNat 32 n = v at number ⊢
  have asString : convert ⟨false,false,0,none,0⟩ (Char.ofNat (115 : Byte).toNat) [.string (some name),.int v] =
      some (⟨false,name⟩,[.int v]) := by
    simp [convert,cString_plain plain]
  have asNumber : convert ⟨false,false,0,none,1⟩ (Char.ofNat (117 : Byte).toNat) [.int v] =
      some (⟨false,text (written 10 n)⟩,[]) := by
    simp [convert,unsignedArg,number]
  have magicPiece := @format_plain (text "s %lu\n".toList) [.string (some name),.int v] 64 (text "@FILE ".toList)
    (by decide) (by decide)
  have readString : readSpec (text "s %lu\n".toList) = (⟨false,false,0,none,0⟩,115 :: ([32] ++ 37 :: text "lu\n".toList)) := rfl
  have namePiece := format_conversion readString asString
  have spacePiece := @format_plain (text "lu\n".toList) [.int v] 32 [] (by decide) (by decide)
  have readNumber : readSpec (text "lu\n".toList) = (⟨false,false,0,none,1⟩,117 :: [10]) := rfl
  have numberPiece := format_conversion readNumber asNumber
  have lastPiece := @format_last [] 10 [] (by decide) (by decide)
  rw [sprintf,whole,magicPiece,namePiece,spacePiece,numberPiece,lastPiece]
  simp only [List.flatten_cons,List.flatten_append,layout_whole,List.flatten_nil,header,List.append_nil]
  simp [magic,text]

theorem header_plain {name : List Byte} {n : Nat} (plain : 0 ∉ name) : 0 ∉ header name n := by
  have start : (0 : Byte) ∉ magic := by decide
  simpa [header] using ⟨start,plain,digits_bytes (by decide)⟩

section
variable {host : Host} {f f' : FILE} {g : Guest} {stream : Stream} {s s' : Streams}

theorem fclose_parts (host : Host) (holds : Holds f stream) (running : g.exited = none) :
    (fclose host f g).stdout = g.stdout ++ record stream.name stream.contents ∧ (fclose host f g).exited = none ∧
      (fclose host f g).files = g.files ∧ (fclose host f g).executed = g.executed := by
  have length : stream.contents.length = f.len := by rw [← holds.contents,FILE.contents_length]
  have hdr : cString (sprintf (text "@@FILE %s %lu\n".toList) [.string (some f.name),.int (BitVec.ofNat 32 f.len)]) =
      header stream.name stream.contents.length := by
    rw [sprintf_header holds.plain.2 holds.bounded,cString_plain (header_plain holds.plain.2),holds.name,length]
  obtain ⟨out,exited,files,executed⟩ := writeAll_parts host (header stream.name stream.contents.length) running
  obtain ⟨out',exited',files',executed'⟩ := writeAll_parts host stream.contents exited
  unfold fclose
  simp only [hdr,exited,holds.contents,Option.isSome_none,Bool.false_eq_true,if_false]
  refine ⟨?_,exited',files'.trans files,executed'.trans executed⟩
  rw [out',out,record,List.append_assoc]

theorem related_at {α β : Type} {R : α → β → Prop} {xs : List α} {ys : List β} (related : List.Forall₂ R xs ys) {i : Nat}
    {x : α} {y : β} (left : xs[i]? = some x) (right : ys[i]? = some y) : R x y := by
  induction related generalizing i with
  | nil => cases left
  | cons first _ ih =>
    cases i with
    | zero =>
      cases left
      cases right
      exact first
    | succ i => exact ih left right

theorem related_set {α β : Type} {R : α → β → Prop} {xs : List α} {ys : List β} (related : List.Forall₂ R xs ys) (i : Nat)
    {x : α} {y : β} (new : R x y) : List.Forall₂ R (xs.set i x) (ys.set i y) := by
  induction related generalizing i with
  | nil => exact .nil
  | cons first rest ih =>
    cases i with
    | zero => exact .cons new rest
    | succ i => exact .cons first (ih i)

-- An operation that writes to one file, against appending to its stream.
theorem onFile_refines {file : Nat} {act : FILE → Except Nat FILE} {bytes : List Byte} (refines : Refines g s)
    (done : (g.onFile file act).exited = none) (legal : s.append file bytes = some s')
    (written : ∀ f f' stream, Holds f stream → act f = .ok f' → stream.contents.length + bytes.length < 2 ^ 32 →
      Holds f' {stream with contents := stream.contents ++ bytes}) :
    Refines (g.onFile file act) s' := by
  unfold Guest.onFile at done ⊢
  unfold Streams.append at legal
  cases opened : g.files[file]? with
  | none => simp [opened] at done
  | some f =>
    cases acted : act f with
    | error code => simp [opened,acted] at done
    | ok f' =>
      cases known : s.files[file]? with
      | none => simp [known] at legal
      | some stream =>
        simp only [known] at legal
        split at legal
        · rename_i allowed
          cases legal
          have new := written f f' stream (related_at refines.files opened known) acted allowed.2
          simp only [acted]
          exact ⟨related_set refines.files file new,refines.stdout,refines.plain⟩
        · cases legal

theorem fopen_holds {path : List Byte} (line : 10 ∉ path) (plain : 0 ∉ path) :
    Holds (fopen host path) ⟨path,[],true⟩ := by
  have name : (fopen host path).name = path := cString_plain plain
  have start : (fopen host path).len = 0 ∧ (fopen host path).cap = 65536 := ⟨rfl,rfl⟩
  refine ⟨name,rfl,Nat.zero_le _,?_,?_,?_⟩
  · exact start.2.ge
  · rw [name]
    exact ⟨line,plain⟩
  · rw [start.1]
    decide

theorem step_refines {op : Op} (refines : Refines g s) (running : g.exited = none)
    (done : (g.step host op).exited = none) (legal : s.step op = some s') : Refines (g.step host op) s' := by
  have started : ¬g.exited.isSome = true := by simp [running]
  unfold Guest.step at done ⊢
  rw [if_neg started] at done ⊢
  cases op with
  | fopen path =>
    simp only [Streams.step] at legal
    split at legal
    · rename_i allowed
      cases legal
      exact ⟨List.rel_append refines.files (.cons (fopen_holds allowed.1 allowed.2) .nil),refines.stdout,refines.plain⟩
    · cases legal
  | fwrite p sz n file =>
    simp only [Streams.step] at legal
    split at legal
    · rename_i array
      exact onFile_refines refines done legal fun f f' stream holds made fits => fwrite_holds holds made array fits
    · cases legal
  | fputc c file =>
    exact onFile_refines refines done legal fun f f' stream holds made fits => fwrite_holds holds made rfl fits
  | fputs p file =>
    simp only [Streams.step] at legal
    split at legal
    · rename_i plain
      refine onFile_refines refines done legal fun f f' stream holds made fits => fwrite_holds holds made ?_ fits
      rw [cString_plain plain,Nat.one_mul]
    · cases legal
  | fprintf fmt args file =>
    simp only [Streams.step] at legal
    split at legal
    · rename_i whole
      refine onFile_refines refines done legal fun f f' stream holds made fits => ?_
      cases put : putAll host f (format (cString fmt) args).1 with
      | error code => simp [fprintf,put,bind,Except.bind] at made
      | ok last =>
        simp only [fprintf,put,whole,bind,Except.bind,if_true,Except.ok.injEq] at made
        subst made
        exact fprintf_pieces holds put fits
    · cases legal
  | fclose file =>
    simp only [Streams.step] at legal
    cases known : s.files[file]? with
    | none => simp [known] at legal
    | some stream =>
      simp only [known] at legal
      split at legal
      · rename_i allowed
        cases legal
        cases opened : g.files[file]? with
        | none => simp [opened] at done
        | some f =>
          have holds := related_at refines.files opened known
          obtain ⟨out,exited,files,executed⟩ := fclose_parts host holds running
          have notExited : ¬(fclose host f g).exited.isSome = true := by simp [exited]
          have shut : Holds f {stream with isOpen := false} := {holds with}
          have same : g.files.set file f = g.files := by
            obtain ⟨inside,rfl⟩ := List.getElem?_eq_some_iff.mp opened
            exact List.set_getElem_self inside
          simp only [opened,if_neg notExited]
          refine ⟨?_,?_,?_⟩
          · have related := related_set refines.files file shut
            rw [same] at related
            exact files ▸ related
          · rw [List.flatMap_append,← refines.stdout]
            simpa using out
          · intro r member
            rcases List.mem_append.mp member with old | new
            · exact refines.plain r old
            · cases List.mem_singleton.mp new
              exact holds.name ▸ holds.plain.1
      · cases legal

-- An operation is counted when it is done, and one that ends the program puts
-- nothing out.
def Counted (g g' : Guest) : Prop :=
  (g'.exited = none ∧ g'.executed = g.executed + 1) ∨
    (g'.exited ≠ none ∧ g'.executed = g.executed ∧ g'.stdout = g.stdout)

theorem onFile_counted {file : Nat} {act : FILE → Except Nat FILE} (running : g.exited = none) :
    Counted g (g.onFile file act) := by
  unfold Guest.onFile
  cases g.files[file]? with
  | none => exact .inr ⟨Option.some_ne_none _,rfl,rfl⟩
  | some f =>
    cases acted : act f with
    | error code =>
      simp only [acted]
      exact .inr ⟨Option.some_ne_none _,rfl,rfl⟩
    | ok f' =>
      simp only [acted]
      exact .inl ⟨running,rfl⟩

theorem step_counted {op : Op} (refines : Refines g s) (running : g.exited = none) : Counted g (g.step host op) := by
  have started : ¬g.exited.isSome = true := by simp [running]
  unfold Guest.step
  rw [if_neg started]
  cases op with
  | fopen path => exact .inl ⟨running,rfl⟩
  | fwrite p sz n file => exact onFile_counted running
  | fputc c file => exact onFile_counted running
  | fputs p file => exact onFile_counted running
  | fprintf fmt args file => exact onFile_counted running
  | fclose file =>
    cases opened : g.files[file]? with
    | none => exact .inr ⟨by simp [opened],by simp [opened]⟩
    | some f =>
      have known : file < s.files.length := by
        rw [← refines.files.length_eq]
        exact (List.getElem?_eq_some_iff.mp opened).1
      have holds := related_at refines.files opened (List.getElem?_eq_getElem known)
      obtain ⟨_,exited,_,executed⟩ := fclose_parts host holds running
      have notExited : ¬(fclose host f g).exited.isSome = true := by simp [exited]
      simp only [opened,if_neg notExited]
      exact .inl ⟨exited,congrArg (· + 1) executed⟩

theorem run_exited {ops : List Op} (stopped : g.exited ≠ none) : g.run host ops = g := by
  induction ops with
  | nil => rfl
  | cons op rest ih =>
    have same : g.step host op = g := by
      unfold Guest.step
      rw [if_pos (Option.isSome_iff_ne_none.mpr stopped)]
    rw [Guest.run,List.foldl_cons,same]
    exact ih

theorem writeAll_executed (p : List Byte) : (g.writeAll host p).executed = g.executed := by
  fun_induction Guest.writeAll host g p with
  | case1 g => rfl
  | case2 g p nonempty w failed => rfl
  | case3 g p nonempty w positive ih => exact ih

theorem fclose_executed : (fclose host f g).executed = g.executed := by
  unfold fclose
  dsimp only
  split
  · exact writeAll_executed _
  · rw [writeAll_executed,writeAll_executed]

theorem step_executed {op : Op} : g.executed ≤ (g.step host op).executed := by
  have onFile : ∀ file act, g.executed ≤ (g.onFile file act).executed := by
    intro file act
    unfold Guest.onFile
    split
    · exact Nat.le_refl _
    · split
      · exact Nat.le_refl _
      · exact Nat.le_succ _
  unfold Guest.step
  split
  · exact Nat.le_refl _
  · cases op with
    | fopen path => exact Nat.le_succ _
    | fwrite p sz n file => exact onFile _ _
    | fputc c file => exact onFile _ _
    | fputs p file => exact onFile _ _
    | fprintf fmt args file => exact onFile _ _
    | fclose file =>
      dsimp only
      split
      · exact Nat.le_refl _
      · split
        · exact fclose_executed.ge
        · exact Nat.le_succ_of_le fclose_executed.ge

theorem run_executed {ops : List Op} : g.executed ≤ (g.run host ops).executed := by
  induction ops generalizing g with
  | nil => exact Nat.le_refl _
  | cons op rest ih => exact step_executed.trans ih

-- What stands in the output after any run, also one that ended early.
theorem run_refines {ops : List Op} (refines : Refines g s) (running : g.exited = none) {done : Nat}
    (counted : (g.run host ops).executed = g.executed + done) (legal : s.run (ops.take done) = some s') :
    (g.run host ops).stdout = s'.closed.flatMap (fun r => record r.1 r.2) ∧ ∀ r ∈ s'.closed, 10 ∉ r.1 := by
  induction ops generalizing g s done with
  | nil =>
    simp only [List.take_nil,Streams.run,Option.some.injEq] at legal
    subst legal
    exact ⟨refines.stdout,refines.plain⟩
  | cons op rest ih =>
    have first : g.run host (op :: rest) = (g.step host op).run host rest := rfl
    rw [first] at counted ⊢
    have progress : Counted g (g.step host op) := step_counted refines running
    rcases progress with ⟨on,one⟩ | ⟨off,same,out⟩
    · have more : (g.step host op).executed ≤ ((g.step host op).run host rest).executed := run_executed
      obtain ⟨later,rfl⟩ : ∃ later, done = later + 1 := ⟨done - 1,by omega⟩
      simp only [List.take_succ_cons,Streams.run,Option.bind_eq_bind,Option.bind_eq_some_iff] at legal
      obtain ⟨middle,stepped,legal⟩ := legal
      exact ih (step_refines refines running on stepped) on (by omega) legal
    · rw [run_exited off] at counted ⊢
      obtain rfl : done = 0 := by omega
      simp only [List.take_zero,Streams.run,Option.some.injEq] at legal
      subst legal
      rw [out]
      exact ⟨refines.stdout,refines.plain⟩

end

section
variable {host : Host} {f : FILE} {g : Guest} {stream : Stream} {s s' : Streams}

-- Files that fit their first block never end the program.
theorem fwrite_small (host : Host) {p : List Byte} {sz n : Nat} (holds : Holds f stream) (array : p.length = sz * n)
    (small : stream.contents.length + p.length ≤ 65536) : ∃ f', fwrite host p sz n f = .ok f' := by
  have length : stream.contents.length = f.len := by rw [← holds.contents,FILE.contents_length]
  have started := holds.started
  have whole : size (sz * n) = p.length := by
    rw [← array]
    exact Nat.mod_eq_of_lt (by omega)
  have sum : size (f.len + p.length) = f.len + p.length := Nat.mod_eq_of_lt (by omega)
  have room : ¬f.len + p.length > f.cap := by omega
  unfold fwrite
  dsimp only
  rw [whole,sum,reserve,if_neg room]
  exact ⟨_,rfl⟩

theorem putAll_small (host : Host) {pieces : List (List Byte)} (holds : Holds f stream)
    (small : stream.contents.length + pieces.flatten.length ≤ 65536) : ∃ f', putAll host f pieces = .ok f' := by
  induction pieces generalizing f stream with
  | nil => exact ⟨f,rfl⟩
  | cons piece rest ih =>
    rw [List.flatten_cons,List.length_append] at small
    obtain ⟨middle,one⟩ := fwrite_small host holds (Nat.one_mul piece.length).symm (by omega)
    have first := fwrite_holds holds one (Nat.one_mul _).symm (by omega)
    obtain ⟨last,more⟩ := ih first (by simp only [List.length_append]; omega)
    exact ⟨last,by simp [putAll,one,more,bind,Except.bind]⟩

def Streams.small (s : Streams) : Bool := s.files.all fun stream => stream.contents.length ≤ 65536

theorem onFile_completes {file : Nat} {act : FILE → Except Nat FILE} {bytes : List Byte} (refines : Refines g s)
    (running : g.exited = none) (legal : s.append file bytes = some s') (small : s'.small = true)
    (works : ∀ f stream, Holds f stream → stream.contents.length + bytes.length ≤ 65536 → ∃ f', act f = .ok f') :
    (g.onFile file act).exited = none := by
  unfold Streams.append at legal
  cases known : s.files[file]? with
  | none => simp [known] at legal
  | some stream =>
    simp only [known] at legal
    split at legal
    · cases legal
      obtain ⟨inside,rfl⟩ := List.getElem?_eq_some_iff.mp known
      have opened : file < g.files.length := by
        rw [refines.files.length_eq]
        exact inside
      have holds := related_at refines.files (List.getElem?_eq_getElem opened) known
      have bounded := List.all_eq_true.mp small _ (List.mem_set inside _)
      simp only [List.length_append,decide_eq_true_eq] at bounded
      obtain ⟨f',made⟩ := works _ _ holds bounded
      unfold Guest.onFile
      simp only [List.getElem?_eq_getElem opened,made]
      exact running
    · cases legal

theorem step_completes (host : Host) {op : Op} (refines : Refines g s) (running : g.exited = none) (legal : s.step op = some s')
    (small : s'.small = true) : (g.step host op).exited = none := by
  have started : ¬g.exited.isSome = true := by simp [running]
  unfold Guest.step
  rw [if_neg started]
  cases op with
  | fopen path => exact running
  | fwrite p sz n file =>
    simp only [Streams.step] at legal
    split at legal
    · rename_i array
      exact onFile_completes refines running legal small fun f stream holds fits => fwrite_small host holds array fits
    · cases legal
  | fputc c file => exact onFile_completes refines running legal small fun f stream holds fits => fwrite_small host holds rfl fits
  | fputs p file =>
    simp only [Streams.step] at legal
    split at legal
    · rename_i plain
      refine onFile_completes refines running legal small fun f stream holds fits => fwrite_small host holds ?_ fits
      rw [cString_plain plain,Nat.one_mul]
    · cases legal
  | fprintf fmt args file =>
    simp only [Streams.step] at legal
    split at legal
    · rename_i whole
      refine onFile_completes refines running legal small fun f stream holds fits => ?_
      obtain ⟨last,put⟩ := putAll_small host holds fits
      exact ⟨last,by simp [fprintf,put,whole,bind,Except.bind]⟩
    · cases legal
  | fclose file =>
    simp only [Streams.step] at legal
    cases known : s.files[file]? with
    | none => simp [known] at legal
    | some stream =>
      have opened : file < g.files.length := by
        rw [refines.files.length_eq]
        exact (List.getElem?_eq_some_iff.mp known).1
      have holds := related_at refines.files (List.getElem?_eq_getElem opened) known
      obtain ⟨_,exited,_,_⟩ := fclose_parts host holds running
      have notExited : ¬(fclose host g.files[file] g).exited.isSome = true := by simp [exited]
      simp only [List.getElem?_eq_getElem opened,if_neg notExited]
      exact exited

-- The uses of a run, when all files stay small on the way.
def Streams.runSmall (s : Streams) : List Op → Option Streams
  | [] => some s
  | op :: rest => do
    let s ← s.step op
    if s.small then runSmall s rest else none

theorem run_completes {ops : List Op} (refines : Refines g s) (running : g.exited = none) (legal : s.runSmall ops = some s') :
    (g.run host ops).executed = g.executed + ops.length ∧ s.run ops = some s' := by
  induction ops generalizing g s with
  | nil => exact ⟨rfl,legal⟩
  | cons op rest ih =>
    simp only [Streams.runSmall,Option.bind_eq_bind,Option.bind_eq_some_iff] at legal
    obtain ⟨middle,stepped,legal⟩ := legal
    split at legal
    · rename_i small
      have on := step_completes host refines running stepped small
      have progress : Counted g (g.step host op) := step_counted refines running
      have one : (g.step host op).executed = g.executed + 1 := by
        rcases progress with ⟨_,one⟩ | ⟨off,_⟩
        · exact one
        · exact absurd on off
      obtain ⟨counted,ran⟩ := ih (step_refines refines running on stepped) on legal
      have first : g.run host (op :: rest) = (g.step host op).run host rest := rfl
      refine ⟨?_,by simp [Streams.run,stepped,ran]⟩
      rw [first,counted,one,List.length_cons]
      omega
    · cases legal

end

theorem start_refines : Refines .start .start := ⟨.nil,rfl,fun _ member => by cases member⟩

-- After any run whose completed operations are such uses, the record loop
-- recovers the closed files when it gets through their names.
theorem output_stream_round_trip (host : Host) (ops : List Op) (s : Streams)
    (legal : Streams.run .start (ops.take (Guest.run host .start ops).executed) = some s) :
    splitRecords (Guest.run host .start ops).stdout = .ok s.closed ↔ ∀ r ∈ s.closed, Recoverable r.1 := by
  obtain ⟨out,lines⟩ := run_refines start_refines rfl (Nat.zero_add _).symm legal
  rw [out]
  exact splitRecords_stream lines

namespace Controls

-- A host that takes one byte at a time.
def slow : Host := ⟨fun _ _ => 1,by intro k n some_left; omega,fun _ _ => 0⟩

def interleaved : List Op :=
  [.fopen (text ['a',' ','b']),.fopen (text ['c']),.fputs (text ['x']) 0,.fputc 10 1,.fclose 1,.fclose 0]

def closing : List (List Byte × List Byte) := [(text ['c'],[10]),(text ['a',' ','b'],text ['x'])]

def written : Streams := ⟨[⟨text ['a',' ','b'],text ['x'],false⟩,⟨text ['c'],[10],false⟩],closing⟩

theorem output_stream_round_trip_interleaved : splitRecords (Guest.run slow .start interleaved).stdout = .ok closing := by
  have ran : Streams.runSmall .start interleaved = some written := rfl
  obtain ⟨executed,legal⟩ := @run_completes slow .start .start _ _ start_refines rfl ran
  have whole : Streams.run .start (interleaved.take (Guest.run slow .start interleaved).executed) = some written := by
    rw [executed]
    exact legal
  refine (output_stream_round_trip slow interleaved written whole).mpr ?_
  intro r member
  rcases List.mem_cons.mp member with rfl | member
  · exact ⟨[99],rfl,rfl⟩
  · cases List.mem_singleton.mp member
    exact ⟨[97,32,98],rfl,rfl⟩

def StopsLoop (name : List Byte) : Prop :=
  Streams.run .start [.fopen name,.fclose 0] = some ⟨[⟨name,[],false⟩],[(name,[])]⟩ ∧
    (Guest.run slow .start [.fopen name,.fclose 0]).executed = 2 ∧
    splitRecords (Guest.run slow .start [.fopen name,.fclose 0]).stdout ≠ .ok [(name,[])]

theorem stops_loop {name : List Byte} (unreadable : ¬Recoverable name)
    (ran : Streams.runSmall .start [.fopen name,.fclose 0] = some ⟨[⟨name,[],false⟩],[(name,[])]⟩) : StopsLoop name := by
  obtain ⟨executed,legal⟩ := @run_completes slow .start .start _ _ start_refines rfl ran
  obtain ⟨out,lines⟩ := run_refines start_refines rfl executed legal
  refine ⟨legal,executed,?_⟩
  rw [out]
  intro split
  exact unreadable ((splitRecords_stream lines).mp split (name,[]) (.head _))

-- Names that stop the loop: a byte that is not UTF-8, and an empty name.
theorem names_stop_the_loop : StopsLoop [255] ∧ StopsLoop [] := by
  constructor
  · apply stops_loop
    · rintro ⟨points,decoded,_⟩
      cases decoded
    · rfl
  · apply stops_loop
    · rintro ⟨points,decoded,file⟩
      cases decoded
      cases file
    · rfl

end Controls

end SandboxStack.Stdio
