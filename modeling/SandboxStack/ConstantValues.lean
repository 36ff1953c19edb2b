import SandboxStack.ConstExpr
import SandboxStack.IntegerExpressions

namespace SandboxStack.Cc
open LinearMemory IntType

section
variable {n lhs rhs test yes no : Node} {ty : Option Ty} {t : IntType} {kind : UnaryKind} {op : BinaryKind} {a b z : Int}

-- A constant expression neither reads nor writes the memory.
theorem ceval_constant (tree : constTree n = true) (place : Obj → Nat) (m : Memory) :
    ceval true place n m = (cvalue n).map fun z => (z,m) := by
  have settled : ∀ {e : Node}, (∃ r : CResult Int, ∀ place m, ceval true place e m = r.map fun z => (z,m)) →
      ∀ place m, ceval true place e m = (cvalue e).map fun z => (z,m) := by
    rintro e ⟨r,same⟩ place m
    rw [cvalue,same,same]
    cases r <;> rfl
  revert tree place m
  suffices h : constTree n = true → ∃ r : CResult Int, ∀ place m, ceval true place n m = r.map fun z => (z,m) from
    fun tree => settled (h tree)
  intro tree
  induction n with
  | num ty n =>
    cases known : intTypeOf ty with
    | none => exact ⟨.error .undefined,fun place m => by simp [ceval,known]; rfl⟩
    | some t => exact ⟨.ok (t.wrap n.val),fun place m => by simp [ceval,known]; rfl⟩
  | unary kind ty lhs ih =>
    simp only [constTree,Bool.and_eq_true] at tree
    obtain ⟨r,same⟩ := ih tree.2
    cases known : intTypeOf ty with
    | none => exact ⟨.error .undefined,fun place m => by simp [ceval,known]; rfl⟩
    | some t =>
      refine ⟨r >>= unaryMeaning true t kind,fun place m => ?_⟩
      simp only [ceval,known,same]
      cases r with
      | error e => rfl
      | ok z =>
        show (unaryMeaning true t kind z >>= _) = (unaryMeaning true t kind z).map _
        cases unaryMeaning true t kind z <;> rfl
  | binary kind ty lhs rhs ihl ihr =>
    simp only [constTree,Bool.and_eq_true] at tree
    obtain ⟨l,left⟩ := ihl tree.1.2
    obtain ⟨r,right⟩ := ihr tree.2
    by_cases logical : kind = .logand ∨ kind = .logor ∨ kind = .comma ∨ kind = .assign
    · rcases logical with rfl | rfl | rfl | rfl
      · refine ⟨l >>= fun a => if a = 0 then .ok 0 else r >>= fun b => .ok (truth (b != 0)),fun place m => ?_⟩
        simp only [ceval,left,right]
        cases l with
        | error e => rfl
        | ok a =>
          by_cases zero : a = 0
          · simp [zero,Except.map,bind,Except.bind,pure,Except.pure]
          · cases r <;> simp [zero,Except.map,bind,Except.bind,pure,Except.pure]
      · refine ⟨l >>= fun a => if a ≠ 0 then .ok 1 else r >>= fun b => .ok (truth (b != 0)),fun place m => ?_⟩
        simp only [ceval,left,right]
        cases l with
        | error e => rfl
        | ok a =>
          by_cases zero : a = 0
          · cases r <;> simp [zero,Except.map,bind,Except.bind,pure,Except.pure]
          · simp [zero,Except.map,bind,Except.bind,pure,Except.pure]
      · refine ⟨l >>= fun _ => r,fun place m => ?_⟩
        simp only [ceval,left]
        cases l with
        | error e => rfl
        | ok a => exact right place m
      · cases tree.1.1.1
    · have plain : kind.rule = .arithmetic ∨ kind.rule = .comparison ∨ kind.rule = .shift := by
        cases kind <;> simp [BinaryKind.rule] at logical ⊢
      cases known : intTypeOf ty with
      | none => exact ⟨.error .undefined,fun place m => by cases kind <;> simp [BinaryKind.rule] at plain <;> simp [ceval,known] <;> rfl⟩
      | some t =>
        cases ty with
        | none => cases known
        | some ty =>
          refine ⟨l >>= fun a => r >>= arithmetic true t kind a,fun place m => ?_⟩
          rw [ceval_binary true place m lhs rhs known kind plain,left]
          cases l with
          | error e => rfl
          | ok a =>
            show (ceval true place rhs m >>= _) = (r >>= _ : CResult Int).map _
            rw [right]
            cases r with
            | error e => rfl
            | ok b =>
              show (arithmetic true t kind a b >>= _) = (arithmetic true t kind a b).map _
              cases arithmetic true t kind a b <;> rfl
  | cond ty test yes no ihc ihy ihn =>
    simp only [constTree,Bool.and_eq_true] at tree
    obtain ⟨c,condition⟩ := ihc tree.1.1.2
    obtain ⟨y,left⟩ := ihy tree.1.2
    obtain ⟨n,right⟩ := ihn tree.2
    refine ⟨c >>= fun z => if z ≠ 0 then y else n,fun place m => ?_⟩
    simp only [ceval,condition]
    cases c with
    | error e => rfl
    | ok z =>
      by_cases zero : z = 0
      · simp [zero,right,Except.map,bind,Except.bind]
      · simp [zero,left,Except.map,bind,Except.bind]
  | _ => cases tree

theorem valueOf_ok (value : cvalue n = .ok z) : valueOf n = z := by
  simp [valueOf,value]

theorem cvalue_unary (tree : constTree lhs = true) (known : intTypeOf ty = some t) :
    cvalue (.unary kind ty lhs) = (cvalue lhs >>= unaryMeaning true t kind) := by
  show (ceval true _ (.unary kind ty lhs) _).map Prod.fst = _
  simp only [ceval,known,ceval_constant tree]
  cases cvalue lhs with
  | error e => rfl
  | ok a =>
    show (unaryMeaning true t kind a >>= _).map _ = unaryMeaning true t kind a
    cases unaryMeaning true t kind a <;> rfl

theorem cvalue_binary (left : constTree lhs = true) (right : constTree rhs = true) (known : intTypeOf ty = some t)
    (plain : op.rule = .arithmetic ∨ op.rule = .comparison ∨ op.rule = .shift) :
    cvalue (.binary op ty lhs rhs) = (cvalue lhs >>= fun a => cvalue rhs >>= arithmetic true t op a) := by
  cases ty with
  | none => cases known
  | some ty =>
    show (ceval true _ (.binary op (some ty) lhs rhs) _).map Prod.fst = _
    rw [ceval_binary true _ _ lhs rhs known op plain,ceval_constant left]
    cases cvalue lhs with
    | error e => rfl
    | ok a =>
      show (ceval true _ rhs _ >>= _).map _ = (cvalue rhs >>= arithmetic true t op a)
      rw [ceval_constant right]
      cases cvalue rhs with
      | error e => rfl
      | ok b =>
        show (arithmetic true t op a b >>= _).map _ = arithmetic true t op a b
        cases arithmetic true t op a b <;> rfl

theorem cvalue_logand (left : constTree lhs = true) (right : constTree rhs = true) :
    cvalue (.binary .logand ty lhs rhs) =
      (cvalue lhs >>= fun a => if a = 0 then .ok 0 else cvalue rhs >>= fun b => .ok (truth (b != 0))) := by
  show (ceval true _ (.binary .logand ty lhs rhs) _).map Prod.fst = _
  simp only [ceval,ceval_constant left,ceval_constant right]
  cases cvalue lhs with
  | error e => rfl
  | ok a =>
    by_cases zero : a = 0
    · simp [zero,Except.map,bind,Except.bind,pure,Except.pure]
    · cases cvalue rhs <;> simp [zero,Except.map,bind,Except.bind,pure,Except.pure]

theorem cvalue_logor (left : constTree lhs = true) (right : constTree rhs = true) :
    cvalue (.binary .logor ty lhs rhs) =
      (cvalue lhs >>= fun a => if a ≠ 0 then .ok 1 else cvalue rhs >>= fun b => .ok (truth (b != 0))) := by
  show (ceval true _ (.binary .logor ty lhs rhs) _).map Prod.fst = _
  simp only [ceval,ceval_constant left,ceval_constant right]
  cases cvalue lhs with
  | error e => rfl
  | ok a =>
    by_cases zero : a = 0
    · cases cvalue rhs <;> simp [zero,Except.map,bind,Except.bind,pure,Except.pure]
    · simp [zero,Except.map,bind,Except.bind,pure,Except.pure]

theorem cvalue_comma (left : constTree lhs = true) :
    cvalue (.binary .comma ty lhs rhs) = (cvalue lhs >>= fun _ => cvalue rhs) := by
  show (ceval true _ (.binary .comma ty lhs rhs) _).map Prod.fst = _
  simp only [ceval,ceval_constant left]
  cases cvalue lhs <;> rfl

theorem cvalue_cond (condition : constTree test = true) :
    cvalue (.cond ty test yes no) = (cvalue test >>= fun c => if c ≠ 0 then cvalue yes else cvalue no) := by
  show (ceval true _ (.cond ty test yes no) _).map Prod.fst = _
  simp only [ceval,ceval_constant condition]
  cases cvalue test with
  | error e => rfl
  | ok c => by_cases zero : c = 0 <;> simp [zero,cvalue,Except.map,bind,Except.bind]

end

end SandboxStack.Cc
