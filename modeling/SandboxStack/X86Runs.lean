import SandboxStack.X86Arithmetic

namespace SandboxStack.X86
open LittleEndian

section
variable (E : Env)

def execAll : List Instr → State → Except Fault State
  | [],s => .ok s
  | i :: rest,s => do
    let s ← i.exec E s
    execAll rest s

end

section
variable {E : Env} {code : List Line} {pc : Nat} {s s' : State}

theorem execAll_append (first second : List Instr) :
    execAll E (first ++ second) s = (execAll E first s >>= execAll E second) := by
  induction first generalizing s with
  | nil => rfl
  | cons i rest ih =>
    simp only [List.cons_append,execAll]
    cases i.exec E s with
    | error e => rfl
    | ok middle => exact ih

theorem reaches_all (block : List Instr) (here : At code pc (block.map .instr)) (ran : execAll E block s = .ok s') :
    Reaches E code pc s (pc + block.length) s' := by
  induction block generalizing pc s with
  | nil => cases ran; exact .refl _ _
  | cons i rest ih =>
    obtain ⟨line,later⟩ := at_line here
    unfold execAll at ran
    cases one : i.exec E s with
    | error e => rw [one] at ran; cases ran
    | ok middle =>
      rw [one] at ran
      have reached := (reaches_instr line one).trans (ih later ran)
      simpa [Nat.add_assoc,Nat.add_comm 1] using reached

theorem faults_all {block : List Instr} (here : At code pc (block.map .instr))
    (ran : execAll E block s = .error .divide) : Faults E code pc s := by
  induction block generalizing pc s with
  | nil => cases ran
  | cons i rest ih =>
    obtain ⟨line,later⟩ := at_line here
    unfold execAll at ran
    cases one : i.exec E s with
    | error e =>
      rw [one] at ran
      cases ran
      exact faults_instr line one
    | ok middle =>
      rw [one] at ran
      exact (reaches_instr line one).faults (ih later ran)

end

-- A run ends in one way where the code ends.
theorem reaches_end {E : Env} {code : List Line} {pc last : Nat} {s s₁ s₂ : State} (stop : code[last]? = none)
    (one : Reaches E code pc s last s₁) (two : Reaches E code pc s last s₂) : s₁ = s₂ := by
  have stuck : ∀ s p, step E code last s ≠ .ok p := by
    intro s p
    simp [step,stop]
  induction one with
  | refl =>
    cases two with
    | refl => rfl
    | next here _ => exact absurd here (stuck _ _)
  | next here _ ih =>
    cases two with
    | refl => exact absurd here (stuck _ _)
    | next there rest =>
      cases here.symm.trans there
      exact ih stop rest stuck

section
variable {m m' : Memory} {a x : U64} {n : Nat}

theorem loadBytes_congr (same : ∀ i < n, m (a + BitVec.ofNat 64 i) = m' (a + BitVec.ofNat 64 i)) :
    loadBytes m a n = loadBytes m' a n := by
  unfold loadBytes
  apply List.map_congr_left
  intro i inside
  exact same i (List.mem_range.mp inside)

theorem readMem_congr (same : ∀ i < n, m (a + BitVec.ofNat 64 i) = m' (a + BitVec.ofNat 64 i)) :
    readMem n m a = readMem n m' a := congrArg leValue (loadBytes_congr same)

theorem writeMem_outside {v : Nat} (apart : n ≤ (x - a).toNat) : writeMem n m a v x = m x := by
  unfold writeMem storeBytes
  rw [List.getElem?_eq_none (by rw [leBytes_length]; exact apart)]

theorem writeMem_congr {v : Nat} (same : m x = m' x) : writeMem n m a v x = writeMem n m' a v x := by
  unfold writeMem storeBytes
  rw [same]

theorem writeMem_mod (v : Nat) : writeMem n m a (v % 256 ^ n) = writeMem n m a v := by
  unfold writeMem
  rw [leBytes_mod]

theorem loadBytes_storeBytes (bytes : List U8) (small : bytes.length ≤ 2 ^ 64) :
    loadBytes (storeBytes m a bytes) a bytes.length = bytes := by
  apply List.ext_getElem
  · simp [loadBytes]
  · intro i inside bound
    have offset : (a + BitVec.ofNat 64 i - a).toNat = i := by
      bv_omega
    simp only [loadBytes,List.getElem_map,List.getElem_range,storeBytes]
    rw [offset,List.getElem?_eq_getElem bound]

theorem readMem_writeMem (v : Nat) (small : n ≤ 2 ^ 64) : readMem n (writeMem n m a v) a = v % 256 ^ n := by
  have back := loadBytes_storeBytes (m := m) (a := a) (leBytes n v) (by rw [leBytes_length]; exact small)
  rw [leBytes_length] at back
  unfold readMem writeMem
  rw [back,leValue_leBytes]

end

-- The 8 * depth bytes under the stack pointer.
def Below (depth : Nat) (sp a : U64) : Prop := (sp - 1 - a).toNat < 8 * depth

section
variable {depth more : Nat} {sp a : U64}

theorem below_mono (less : depth ≤ more) (inside : Below depth sp a) : Below more sp a := by
  unfold Below at *
  omega

theorem below_word : Below 1 sp a ↔ (a - (sp - 8)).toNat < 8 := by
  unfold Below
  bv_omega

theorem below_next (inside : Below depth (sp - 8) a) : Below (depth + 1) sp a := by
  unfold Below at *
  bv_omega

theorem below_apart (room : 8 * (depth + 1) ≤ 2 ^ 64) (inside : Below 1 sp a) : ¬Below depth (sp - 8) a := by
  unfold Below at *
  bv_omega

end

end SandboxStack.X86
