import TapeScript.Proofs.Run.Limit
import TapeScript.Proofs.Skeleton.Reading

/-! # What a run has recorded

Executing never touches what is recorded, so the skeleton after any steps, and the listing of a
run, are read off the commands. -/

namespace TapeScript

open Outcome

namespace Engine

variable {fresh e e' : Engine} {pre commands : List Command} {fuel : Nat}

theorem Stepped.sameShape {device : Device} {limit : Option Nat}
    (h : Stepped { device, limit } commands e) :
    e.skeleton.SameShape (Skeleton.recorded commands) := by
  induction h with
  | fresh => exact .refl _
  | step _ hstep ih =>
      rw [Skeleton.recorded_concat]
      exact (sameShape_step hstep).trans (ih.record _)

theorem Stepped.steps (h : Stepped fresh pre e) (hsteps : e.steps fuel commands = some (.ok e')) :
    Stepped fresh (pre ++ commands) e' := by
  induction commands generalizing pre e with
  | nil =>
      obtain rfl := Outcome.ok.inj (Option.some.inj hsteps)
      rwa [List.append_nil]
  | cons c commands ih =>
      rw [steps_cons_eq, chain_eq_some] at hsteps
      cases hsteps with
      | ok hstep hnext =>
          rw [List.append_cons]
          exact ih (h.step hstep) hnext

end Engine

namespace Setup

variable {setup : Setup} {fuel : Nat} {script input : Source} {output : Sink} {e : Engine}

/-- A run that ends well has recorded its script. -/
theorem readsAs_of_run (h : setup.run fuel script input output = some (.ok e)) :
    e.skeleton.ReadsAs (setup.commands script) := by
  rw [run_eq, chain_eq_some] at h
  cases h with
  | @ok e' _ hsteps hfinish =>
      have hstepped := Engine.Stepped.steps .fresh hsteps
      obtain ⟨sink, hkeeps⟩ := state_finish script.broken? e'
      rw [Option.some.inj hfinish, state_ok] at hkeeps
      rw [hkeeps]
      exact hstepped.sameShape.readsAs

/-- A run that is shown fails as any other run does, and else shows its commands. -/
theorem rows_eq (setup : Setup) (fuel : Nat) (script : Source) (input : List UInt8) :
    setup.rows fuel script input =
      (setup.run fuel script (.ofBytes input) {}).map fun
        | .ok _ => .ok (Listing.ofCommands (setup.commands script))
        | .fault cause _ => .error cause := by
  rw [rows]
  cases hr : setup.run fuel script (.ofBytes input) {} with
  | none => rfl
  | some o =>
      cases o with
      | ok e => exact congrArg (some ∘ Except.ok) (readsAs_of_run hr).rows
      | fault cause e => rfl

end Setup

end TapeScript
