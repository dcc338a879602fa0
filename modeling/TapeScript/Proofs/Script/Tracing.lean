import TapeScript.Proofs.Script.Parsing
import TapeScript.Script.Evaluation

/-! # Traces of trees

A trace of a tree that ends well, without a limit: all that is executed on the way. -/

namespace TapeScript

/-- One action of a run: how many commands stand before its own in the script, and the tape that
it finds. -/
structure Act where
  position : Nat
  command : Command
  tape : Tape

namespace Script

/-- Evaluating the tree, whose first command has this position, leads from one device to the
other and executes this. -/
inductive Traces : Nat → Script → Device → List Act → Device → Prop where
  | done (n : Nat) (d : Device) : Traces n done d [] d
  | act {n : Nat} {c : Command} {rest : Script} {action : Action} {d d' d'' : Device}
      {log : List Act} (hk : c.kind = .simple action) (hrun : action.run d = .ok d')
      (h : Traces (n + 1) rest d' log d'') : Traces n (act c rest) d (⟨n, c, d.tape⟩ :: log) d''
  | leave {n : Nat} {o c : Command} {body rest : Script} {d d' : Device} {log : List Act}
      (hz : d.tape.current = 0) (h : Traces (n + body.length + 2) rest d log d') :
      Traces n (loop o body c rest) d (⟨n, o, d.tape⟩ :: log) d'
  | enter {n : Nat} {o c : Command} {body rest : Script} {d d' d'' : Device}
      {inside log : List Act} (hnz : d.tape.current ≠ 0)
      (hbody : Traces (n + 1) body d inside d')
      (hagain : Traces n (loop o body c rest) d' log d'') :
      Traces n (loop o body c rest) d
        (⟨n, o, d.tape⟩ :: (inside ++ ⟨n + body.length + 1, c, d'.tape⟩ :: log)) d''

/-- What follows a loop is executed after it. -/
theorem exists_traces_rest {n : Nat} {o c : Command} {body rest : Script} {d d' : Device}
    {log : List Act} (h : Traces n (loop o body c rest) d log d') :
    ∃ log₁ log₂ d₁, log = log₁ ++ log₂ ∧ Traces n (loop o body c done) d log₁ d₁ ∧
      Traces (n + body.length + 2) rest d₁ log₂ d' := by
  generalize ht : loop o body c rest = t at h
  induction h with
  | done => cases ht
  | act => cases ht
  | leave hz h =>
      cases ht
      exact ⟨_, _, _, rfl, .leave hz (.done _ _), h⟩
  | enter hnz hbody _ _ ih =>
      cases ht
      obtain ⟨log₁, log₂, d₁, rfl, hagain, hrest⟩ := ih rfl
      exact ⟨_, log₂, d₁, by simp, .enter hnz hbody hagain, hrest⟩

end Script

end TapeScript
