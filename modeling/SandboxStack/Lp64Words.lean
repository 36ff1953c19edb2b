import SandboxStack.GenX86
import SandboxStack.IntegerExpressions
import SandboxStack.Lp64Semantics
import SandboxStack.X86Runs

namespace SandboxStack.Cc.X86
open SandboxStack.X86 LittleEndian IntType

-- A type of the integer expressions, as what the code generator makes of it.
structure Word (ty : Ty) (w : Width) (u : Bool) : Prop where
  known : intTypeOn lp64 ty = some ⟨w.bits,u⟩
  either : w = .long ∨ w = .quad
  loads : X86.load ty = ins (if w = .quad then .mov .quad (.mem 0 .rax) rax else .extend true .long .quad (.mem 0 .rax) .rax)
  stores : X86.store ty = pop .rdi ++ ins (.mov w rax (.mem 0 .rdi))
  tests : X86.cmpZero ty = ins (.cmp w (.imm 0) rax)
  operand : wordOf ty = w
  unsigned : ty.isUnsigned = u
  eight : (ty.size lp64 == 8) = (w == .quad)
  enum : isEnum (some ty) = true → w = .long ∧ u = false

theorem Word.unique {ty : Ty} {w w' : Width} {u u' : Bool} (one : Word ty w u) (two : Word ty w' u') : w = w' ∧ u = u' :=
  ⟨one.operand.symm.trans two.operand,one.unsigned.symm.trans two.unsigned⟩

theorem isWord_parts {ty : Option Ty} (word : isWord ty = true) : ∃ ty' w u, ty = some ty' ∧ Word ty' w u := by
  cases ty with
  | none => simp [isWord,intTypeOf] at word
  | some ty =>
    cases ty <;> simp [isWord,intTypeOf,Ty.intType] at word
    case int u => exact ⟨_,.long,u,rfl,rfl,.inl rfl,rfl,rfl,rfl,rfl,rfl,rfl,by simp [isEnum]⟩
    case long u => exact ⟨_,.quad,u,rfl,rfl,.inr rfl,rfl,rfl,rfl,rfl,rfl,rfl,by simp [isEnum]⟩
    case llong u => exact ⟨_,.quad,u,rfl,rfl,.inr rfl,rfl,rfl,rfl,rfl,rfl,rfl,by simp [isEnum]⟩
    case enum => exact ⟨_,.long,false,rfl,rfl,.inl rfl,rfl,rfl,rfl,rfl,rfl,rfl,fun _ => ⟨rfl,rfl⟩⟩
    case ptr base => exact ⟨_,.quad,true,rfl,rfl,.inr rfl,rfl,rfl,rfl,rfl,rfl,rfl,by simp [isEnum]⟩

-- What a piece of code leaves alone: the stack pointer, the frame, and of the
-- memory it may use for the stack all but the `depth` words under the stack pointer.
structure Kept (own : U64 → Prop) (depth : Nat) (s s' : State) : Prop where
  sp : s'.regs .rsp = s.regs .rsp
  bp : s'.regs .rbp = s.regs .rbp
  saved : ∀ a, own a → ¬Below depth (s.regs .rsp) a → s'.memory a = s.memory a

-- The machine at the start of a piece of code, `m` being the memory C sees.
structure Ready (own : U64 → Prop) (bp : U64) (depth : Nat) (s : State) (m : Memory) : Prop where
  frame : s.regs .rbp = bp
  room : 8 * depth ≤ 2 ^ 64
  scratch : ∀ a, Below depth (s.regs .rsp) a → own a
  agrees : ∀ a, ¬own a → s.memory a = m a

-- The code from `pc` to `pc'` does what C says.
def Ends (E : Env) (own : U64 → Prop) (depth : Nat) (code : List Line) (pc pc' : Nat) (s : State)
    (post : Int → State → Prop) : CResult (Int × Memory) → Prop
  | .ok (z,m) => ∃ s', Reaches E code pc s pc' s' ∧ post z s' ∧ (∀ a, ¬own a → s'.memory a = m a) ∧ Kept own depth s s'
  | .error .trap => Faults E code pc s
  | .error .undefined => True

structure Still (s s' : State) : Prop where
  memory : s'.memory = s.memory
  sp : s'.regs .rsp = s.regs .rsp
  bp : s'.regs .rbp = s.regs .rbp

section
variable {E : Env} {own : U64 → Prop} {bp : U64} {depth more : Nat} {code : List Line} {pc mid pc' : Nat} {s s' s'' : State}
  {m m' : Memory} {post post' : Int → State → Prop} {r : CResult (Int × Memory)} {z : Int}

theorem Kept.trans (one : Kept own depth s s') (two : Kept own depth s' s'') : Kept own depth s s'' where
  sp := two.sp.trans one.sp
  bp := two.bp.trans one.bp
  saved := by
    intro a inside apart
    rw [two.saved a inside (by rw [one.sp]; exact apart),one.saved a inside apart]

theorem Kept.mono (less : depth ≤ more) (kept : Kept own depth s s') : Kept own more s s' where
  sp := kept.sp
  bp := kept.bp
  saved := fun a inside apart => kept.saved a inside fun below => apart (below_mono less below)

theorem Still.kept (still : Still s s') : Kept own depth s s' :=
  ⟨still.sp,still.bp,fun a _ _ => by rw [still.memory]⟩

theorem Ready.mono (less : depth ≤ more) (ready : Ready own bp more s m) : Ready own bp depth s m where
  frame := ready.frame
  room := by
    have room := ready.room
    omega
  scratch := fun a below => ready.scratch a (below_mono less below)
  agrees := ready.agrees

theorem Ready.next (ready : Ready own bp depth s m) (agrees : ∀ a, ¬own a → s'.memory a = m' a)
    (kept : Kept own depth s s') : Ready own bp depth s' m' where
  frame := kept.bp.trans ready.frame
  room := ready.room
  scratch := by
    rw [kept.sp]
    exact ready.scratch
  agrees := agrees

theorem ends_weaken (ends : Ends E own depth code pc pc' s post r)
    (weaker : ∀ z m s', r = .ok (z,m) → post z s' → post' z s') : Ends E own depth code pc pc' s post' r := by
  match r with
  | .ok (z,m) =>
    obtain ⟨s',reached,left,agrees,kept⟩ := ends
    exact ⟨s',reached,weaker z m s' rfl left,agrees,kept⟩
  | .error .trap => exact ends
  | .error .undefined => trivial

theorem ends_after (reached : Reaches E code pc s mid s') (kept : Kept own depth s s')
    (ends : Ends E own depth code mid pc' s' post r) : Ends E own depth code pc pc' s post r := by
  match r with
  | .ok (z,m) =>
    obtain ⟨last,further,left,agrees,same⟩ := ends
    exact ⟨last,reached.trans further,left,agrees,kept.trans same⟩
  | .error .trap => exact reached.faults ends
  | .error .undefined => trivial

theorem ends_bind {f : Int × Memory → CResult (Int × Memory)} (ready : Ready own bp depth s m)
    (first : Ends E own depth code pc mid s post r)
    (next : ∀ z m' s', r = .ok (z,m') → post z s' → Ready own bp depth s' m' →
      Ends E own depth code mid pc' s' post' (f (z,m'))) : Ends E own depth code pc pc' s post' (r >>= f) := by
  match r with
  | .ok (z,m') =>
    obtain ⟨s',reached,left,agrees,kept⟩ := first
    exact ends_after reached kept (next z m' s' rfl left (ready.next agrees kept))
  | .error .trap => exact first
  | .error .undefined => trivial

theorem ends_done (reached : Reaches E code pc s pc' s') (left : post z s') (still : Still s s')
    (ready : Ready own bp depth s m) : Ends E own depth code pc pc' s post (.ok (z,m)) :=
  ⟨s',reached,left,fun a outside => by rw [still.memory]; exact ready.agrees a outside,still.kept⟩

-- Code that follows and only changes the result's form.
theorem ends_then (first : Ends E own depth code pc mid s post r)
    (last : ∀ z s', post z s' → ∃ s'', Reaches E code mid s' pc' s'' ∧ post' z s'' ∧ Still s' s'') :
    Ends E own depth code pc pc' s post' r := by
  match r with
  | .ok (z,m) =>
    obtain ⟨s',reached,left,agrees,kept⟩ := first
    obtain ⟨s'',further,right,still⟩ := last z s' left
    exact ⟨s'',reached.trans further,right,fun a outside => by rw [still.memory]; exact agrees a outside,
      kept.trans still.kept⟩
  | .error .trap => exact first
  | .error .undefined => trivial

def pushed (s : State) : State :=
  {s.setReg .rsp (s.regs .rsp - 8) with memory := writeMem 8 s.memory (s.regs .rsp - 8) (s.regs .rax).toNat}

def popped (s : State) (v : U64) : State := (s.setReg .rsp (s.regs .rsp + 8)).setReg .rdi v

theorem pushed_outside {a : U64} (apart : ¬Below 1 (s.regs .rsp) a) : (pushed s).memory a = s.memory a := by
  apply writeMem_outside
  rw [below_word] at apart
  omega

theorem pushed_ready (ready : Ready own bp (depth + 1) s m) : Ready own bp depth (pushed s) m where
  frame := ready.frame
  room := by
    have room := ready.room
    omega
  scratch := fun a below => ready.scratch a (below_next below)
  agrees := by
    intro a outside
    rw [pushed_outside fun below => outside (ready.scratch a (below_mono (by omega) below))]
    exact ready.agrees a outside

-- What was pushed is still there.
theorem pushed_saved (ready : Ready own bp (depth + 1) s m) (kept : Kept own depth (pushed s) s') :
    readMem 8 s'.memory (s.regs .rsp - 8) = (s.regs .rax).toNat := by
  have same : readMem 8 s'.memory (s.regs .rsp - 8) = readMem 8 (pushed s).memory (s.regs .rsp - 8) := by
    apply readMem_congr
    intro i inside
    have offset : (s.regs .rsp - 8 + BitVec.ofNat 64 i - (s.regs .rsp - 8)).toNat < 8 := by
      generalize s.regs .rsp - 8 = sp
      bv_omega
    have below := below_word.mpr offset
    exact kept.saved _ (ready.scratch _ (below_mono (by omega) below)) (below_apart ready.room below)
  have bound := (s.regs .rax).isLt
  rw [same]
  exact (readMem_writeMem _ (by decide)).trans (Nat.mod_eq_of_lt (by omega))

theorem pushed_kept (kept : Kept own depth (pushed s) s') (v : U64) : Kept own (depth + 1) s (popped s' v) where
  sp := by
    show s'.regs .rsp + 8 = s.regs .rsp
    rw [kept.sp]
    show s.regs .rsp - 8 + 8 = s.regs .rsp
    bv_omega
  bp := kept.bp
  saved := by
    intro a inside apart
    have same : s'.memory a = (pushed s).memory a := kept.saved a inside fun below => apart (below_next below)
    exact same.trans (pushed_outside fun below => apart (below_mono (by omega) below))

-- A value kept on the stack while another is computed, then taken off into %rdi.
theorem ends_pushed (ready : Ready own bp (depth + 1) s m) (push : code[pc]? = some (.instr (.push .rax)))
    (pop : code[mid]? = some (.instr (.pop .rdi)))
    (inner : Ready own bp depth (pushed s) m → Ends E own depth code (pc + 1) mid (pushed s) post r) :
    Ends E own (depth + 1) code pc (mid + 1) s
      (fun z last => ∃ s', post z s' ∧ last.regs .rax = s'.regs .rax ∧ last.regs .rdi = s.regs .rax) r := by
  have first : Reaches E code pc s (pc + 1) (pushed s) := reaches_instr push rfl
  have ends := inner (pushed_ready ready)
  match r with
  | .ok (z,m') =>
    obtain ⟨s',reached,left,agrees,kept⟩ := ends
    have sp : s'.regs .rsp = s.regs .rsp - 8 := kept.sp
    have last : Reaches E code mid s' (mid + 1) (popped s' (s.regs .rax)) := by
      refine reaches_instr pop ?_
      simp only [Instr.exec,sp,pushed_saved ready kept,BitVec.ofNat_toNat,BitVec.setWidth_eq]
      simp only [popped,sp]
    exact ⟨_,first.trans (reached.trans last),⟨s',left,rfl,rfl⟩,agrees,pushed_kept kept _⟩
  | .error .trap => exact first.faults ends
  | .error .undefined => trivial

end

end SandboxStack.Cc.X86
