import TapeScript.Fault

/-! What an operation on a state leaves behind: the new state, and the fault if there
was one. A fault does not undo what happened before it. -/

namespace TapeScript

inductive Outcome (σ : Type) where
  | ok (state : σ)
  | fault (cause : Fault) (state : σ)
  deriving Repr

namespace Outcome

variable {σ τ : Type}

def state : Outcome σ → σ
  | ok s => s
  | fault _ s => s

def fault? : Outcome σ → Option Fault
  | ok _ => none
  | fault f _ => some f

def map (g : σ → τ) : Outcome σ → Outcome τ
  | ok s => ok (g s)
  | fault f s => fault f (g s)

@[simp] theorem state_ok (s : σ) : (ok s).state = s := rfl

@[simp] theorem state_fault (f : Fault) (s : σ) : (fault f s).state = s := rfl

@[simp] theorem fault?_ok (s : σ) : (ok s).fault? = none := rfl

@[simp] theorem fault?_fault (f : Fault) (s : σ) : (fault f s).fault? = some f := rfl

@[simp] theorem state_map (g : σ → τ) (o : Outcome σ) : (o.map g).state = g o.state := by
  cases o <;> rfl

@[simp] theorem fault?_map (g : σ → τ) (o : Outcome σ) : (o.map g).fault? = o.fault? := by
  cases o <;> rfl

theorem ext_iff {o p : Outcome σ} : o = p ↔ o.state = p.state ∧ o.fault? = p.fault? := by
  cases o <;> cases p <;> simp [state, fault?, and_comm]

end Outcome

end TapeScript
