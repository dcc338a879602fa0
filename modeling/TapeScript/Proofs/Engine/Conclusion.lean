import TapeScript.Proofs.Builtin
import TapeScript.Proofs.Engine.Feed
import TapeScript.Proofs.Stream.Delivery
import TapeScript.Run

/-! # Whole runs

A script that comes in portion by portion is stepped through as if it came at once, and a run
ends well only if the brackets of the script are balanced. -/

namespace TapeScript

open Outcome

/-! ## The script as a stream -/

/-- Behind its last byte a script ends or breaks off. -/
def Engine.breakOff : Option String → Engine → Outcome Engine
  | some text, e => .fault (.stream text) e
  | none, e => .ok e

theorem Setup.stepThrough_eq (setup : Setup) (fuel : Nat) (script : Source) (e : Engine) :
    setup.stepThrough fuel script e =
      chain (e.steps fuel (setup.dialect.commandsOf script.delivered))
        fun e => some (e.breakOff script.broken?) := by
  induction hn : script.rest.length using Nat.strongRecOn generalizing script e with
  | ind n ih =>
      have hportion := script.portion_read (by decide : 0 < Setup.room)
      rw [stepThrough]
      split <;> rename_i hread <;> rw [hread] at hportion
      · cases hportion with
        | broken hd hb =>
            rw [hd, hb]
            rfl
      · cases hportion with
        | ended hd hb =>
            rw [hd, hb]
            rfl
      · rename_i byte bytes t
        have hlt : t.rest.length < n := hn ▸ Source.length_rest_lt_of_read hread
        cases hportion with
        | more hd hb =>
            rw [hd, hb, Dialect.commandsOf_append, Engine.steps_append_eq]
            rcases e.steps fuel (setup.dialect.commandsOf (byte :: bytes)) with
              _ | e' | ⟨cause, e'⟩
            · rfl
            · exact ih _ hlt t e' rfl
            · rfl

theorem Source.delivered_ofBytes (bytes : List UInt8) :
    (Source.ofBytes bytes).delivered = bytes ∧ (Source.ofBytes bytes).broken? = none := by
  obtain ⟨hd, hb⟩ := delivered_of_chunk (s := ofBytes bytes) (Option.some_ne_none 0).symm
  rw [hd, hb]
  exact ⟨List.take_length, rfl⟩

namespace Engine

/-! ## The depth of open loops -/

theorem depthFrom?_step {fuel : Nat} {c : Command} {e e' : Engine}
    (h : e.step fuel c = some (.ok e')) :
    Bracket.depthFrom? e.skeleton.openLoops.length (Bracket.ofCommands [c]) =
      some e'.skeleton.openLoops.length := by
  have hopen : e'.skeleton.openLoops = (e.skeleton.record c).state.openLoops := by
    refine step_induction (P := fun e' => e'.skeleton.openLoops = _) ?_ ?_ h
    · intro e₁ he
      exact (sameShape_turn e₁).openLoops.trans he
    · rw [skeleton_record]
  have hrecord : (e.skeleton.record c).fault? = none := by
    have hmap : (e.record c).fault? = (e.skeleton.record c).fault? := fault?_map _ _
    rw [← hmap]
    cases hr : e.record c with
    | ok e₁ => rfl
    | fault cause e₁ =>
        simp only [step, hr] at h
        cases h
  rw [hopen, Skeleton.openLoops_record, Bracket.ofCommands_cons]
  cases hk : c.kind with
  | simple action => rfl
  | loopOpen => rfl
  | loopClose =>
      simp only [Skeleton.record, hk, Skeleton.fault?_sealLoop, Skeleton.openLoops_push] at hrecord
      cases ho : e.skeleton.openLoops with
      | nil =>
          simp [ho] at hrecord
      | cons l outer => rfl

theorem depthFrom?_steps {fuel : Nat} {cs : List Command} {e e' : Engine}
    (h : e.steps fuel cs = some (.ok e')) :
    Bracket.depthFrom? e.skeleton.openLoops.length (Bracket.ofCommands cs) =
      some e'.skeleton.openLoops.length := by
  induction cs generalizing e with
  | nil =>
      obtain rfl := Outcome.ok.inj (Option.some.inj h)
      rfl
  | cons c cs ih =>
      rw [steps_cons_eq, chain_eq_some] at h
      cases h with
      | ok h hnext =>
          rw [← List.singleton_append, Bracket.ofCommands_append, Bracket.depthFrom?_append,
            depthFrom?_step h, Option.bind_some]
          exact ih hnext

/-! ## The end of the script -/

/-- Balanced commands leave no loop open. -/
theorem openLoops_of_balanced {cs : List Command} {e e' : Engine}
    (hbalanced : Bracket.Balanced (Bracket.ofCommands cs)) (hopen : e.skeleton.openLoops = [])
    (h : Steps cs e (.ok e')) : e'.skeleton.openLoops = [] := by
  obtain ⟨fuel, h⟩ := h
  have hdepth := depthFrom?_steps h
  rw [hopen, List.length_nil, hbalanced] at hdepth
  exact List.length_eq_zero_iff.mp (Option.some.inj hdepth).symm

theorem conclude_of_open {e : Engine} (h : e.skeleton.openLoops ≠ []) :
    e.conclude = .fault (.unclosedLoops e.skeleton.depth) e := by
  have hempty : e.skeleton.openLoops.isEmpty = false := by simpa using h
  simp only [conclude, Skeleton.check, hempty, Bool.false_eq_true, if_false]

/-- Only behind closed loops the output is flushed. -/
theorem conclude_eq_flush {e : Engine} (h : e.skeleton.openLoops = []) :
    e.conclude = e.device.flush.map fun device => { e with device } := by
  simp only [conclude, Skeleton.check, h, List.isEmpty_nil, if_true]

theorem conclude_of_closed {e : Engine} (h : e.skeleton.openLoops = [])
    (hf : e.device.sink.flushError = none) :
    ∃ e', e.conclude = .ok e' ∧ e'.device.sink.accepted = e.device.sink.accepted := by
  simp only [conclude, Skeleton.check, h, List.isEmpty_nil, if_true, Device.flush, Sink.flush, hf]
  exact ⟨_, rfl, rfl⟩

end Engine

namespace Setup

/-! ## The run as a whole -/

/-- A tape of this length, and the built-in commands only. -/
abbrev ofTape (length : Nat) (hl : 0 < length) (limit : Option Nat) : Setup :=
  { length, length_pos := hl, limit }

/-- The end of a run whose script was stepped through without a fault. -/
def finish (broken? : Option String) (e : Engine) : Outcome Engine :=
  match e.breakOff broken? with
  | .ok e => e.conclude
  | .fault cause e => .fault cause e

/-- Only behind a script that is read to its end, with all loops closed, the output is flushed. -/
theorem finish_cases (broken? : Option String) (e : Engine) :
    (broken? = none ∧ e.skeleton.openLoops = [] ∧
        finish broken? e = e.device.flush.map fun device => { e with device }) ∨
      (¬(broken? = none ∧ e.skeleton.openLoops = []) ∧
        ∃ cause, finish broken? e = .fault cause e) := by
  cases broken? with
  | some text => exact .inr ⟨nofun, _, rfl⟩
  | none =>
      by_cases hopen : e.skeleton.openLoops = []
      · exact .inl ⟨rfl, hopen, Engine.conclude_eq_flush hopen⟩
      · exact .inr ⟨fun h => hopen h.2, _, Engine.conclude_of_open hopen⟩

theorem run_eq (setup : Setup) (fuel : Nat) (script input : Source) (output : Sink) :
    setup.run fuel script input output =
      chain ((setup.start input output).steps fuel (setup.dialect.commandsOf script.delivered))
        fun e => some (finish script.broken? e) := by
  rw [run, stepThrough_eq]
  rcases (setup.start input output).steps fuel (setup.dialect.commandsOf script.delivered) with
    _ | e | ⟨cause, e⟩
  · rfl
  · simp only [chain, finish]
    cases e.breakOff script.broken? <;> rfl
  · rfl

/-- What a run answers when stepping through the whole script ended so. -/
def reported : Outcome Engine → Except Fault (Array UInt8 × Tally)
  | .fault cause _ => .error cause
  | .ok e =>
    match e.conclude with
    | .ok e => .ok (e.device.sink.accepted, e.tally)
    | .fault cause _ => .error cause

theorem runPlain_eq (setup : Setup) (fuel : Nat) (script input : List UInt8) :
    setup.runPlain fuel script input =
      ((setup.start (.ofBytes input) {}).steps fuel (setup.dialect.commandsOf script)).map
        reported := by
  obtain ⟨hdelivered, hbroken⟩ := Source.delivered_ofBytes script
  rw [runPlain, run_eq, hdelivered, hbroken]
  rcases (setup.start (.ofBytes input) {}).steps fuel (setup.dialect.commandsOf script) with
    _ | e | ⟨cause, e⟩
  · rfl
  · cases hc : e.conclude <;>
      simp only [chain, finish, Engine.breakOff, Option.map_some, reported, hc]
  · rfl

end Setup

end TapeScript
