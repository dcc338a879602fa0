import TapeScript.Proofs.Engine.Lockstep
import TapeScript.Proofs.Run.Limit
import TapeScript.Proofs.Stream.Writing

/-! # Runs whose output fails

A run goes on as if its output never failed, up to the first byte that is refused, and ends
there. The output is flushed once, behind a run that has come to a good end. -/

namespace TapeScript

open Outcome

namespace Engine

variable {output : Sink} {n : Nat} {commands : List Command} {e e' m m' : Engine}

/-- The bytes that were written since the sink was as given. -/
def emitted (output : Sink) (e : Engine) : List UInt8 :=
  e.device.sink.accepted.toList.drop output.accepted.size

/-- The same engine, whose output fails where that one does. -/
def failingAs (output : Sink) (e : Engine) : Engine :=
  { e with device := { e.device with sink := e.device.sink.failingAs output } }

/-- The same engine, whose output was flushed once more than that sink. -/
def flushed (output : Sink) (e : Engine) : Engine :=
  { e with
    device := { e.device with sink := { e.device.sink with flushes := output.flushes + 1 } } }

/-- The output was not flushed yet, and a flush of it fails as at the start. -/
def Unflushed (output : Sink) (e : Engine) : Prop :=
  e.device.sink.flushes = output.flushes ∧ e.device.sink.flushError = output.flushError

theorem kept_unflushed (output : Sink) : Kept (Unflushed output) := by
  refine Kept.of_requests (P := fun d => d.sink.flushes = output.flushes ∧
    d.sink.flushError = output.flushError) fun request d h => ?_
  rcases d.perform_cases request with ⟨tape, hd⟩ | hd | ⟨byte, hd⟩ <;> rw [hd]
  · exact h
  · exact h
  · rw [Sink.write_eq]
    split <;> exact h

theorem emitted_of_after {bytes : List UInt8}
    (h : e.device.sink.accepted = (output.after bytes).accepted) : e.emitted output = bytes := by
  rw [emitted, h, Sink.after_eq]
  simp

theorem emitted_of_free {bytes : List UInt8} (h : e.device.sink = output.free.after bytes) :
    e.emitted output = bytes := by
  apply emitted_of_after
  rw [h, Sink.after_eq, Sink.after_eq]
  rfl

theorem length_emitted_of_within {d' : Device} (h : Device.Within output n e.device d') :
    (e.emitted output).length ≤ n := by
  obtain ⟨bytes, hn, hsink, -⟩ := h
  rw [emitted_of_free hsink]
  exact hn

/-- Every action of the command gives up on its first refused request. -/
def GivesUp (c : Command) : Prop := ∀ ⦃action⦄, c.kind = .simple action → action.Strict

theorem givesUp_builtin {c : Command} (hc : c ∈ Command.builtins) : GivesUp c := by
  intro action hk
  obtain ⟨p, rfl⟩ := Command.exists_prim_of_builtin hc hk
  exact p.strict_action

theorem tracks_within (hs : output.capacity = some (output.accepted.size + n)) :
    Tracks GivesUp (Device.Within output n) (Device.CutOff output n) where
  current := by
    rintro d d' ⟨bytes, -, -, rfl⟩
    rfl
  run := by
    intro c action d d' hc hk h
    exact (hc hk).run_within hs h

/-! ## Where the output fails -/

/-- With the failing output, stepping ends in the turn that writes the first byte beyond `n`. -/
structure CutAt (output : Sink) (n : Nat) (commands : List Command) (fresh fresh' e : Engine) :
    Prop where
  ends : Steps commands fresh' (.fault output.refusal.fault e)
  length : (e.emitted output).length = n
  sink : e.device.sink = (output.after (e.emitted output)).count
  turn : ∃ m, TurnsIn commands fresh m ∧ (m.emitted output).length ≤ n ∧
    n < (m.turn.engine.emitted output).length ∧ e.executed = m.executed + 1

/-- With the failing output stepping has ended, and this engine has written what was written
until then, and perhaps more. -/
def Outruns (output : Sink) (n : Nat) (commands : List Command) (fresh fresh' x : Engine) : Prop :=
  ∃ e more, CutAt output n commands fresh fresh' e ∧
    x.device.sink = output.free.after (e.emitted output ++ more)

theorem Outruns.of_parts (hm : TurnsIn commands e m) (hm' : TurnsIn commands e' m')
    (h : Parts (Device.Within output n) (Device.CutOff output n) m m') :
    Outruns output n commands e e' m.turn.engine := by
  cases h with
  | @intro c action s halike ht hx hk hcut =>
      obtain ⟨device, hR, rfl⟩ := halike
      obtain ⟨bytes, byte, more, tape, source, hlength, hfree, hfault⟩ := hcut
      have hstopped : Engine.turn { m with device } = .stopped output.refusal.fault
          ⟨⟨tape, source, (output.after bytes).count⟩, s, m.limit, m.executed + 1⟩ := by
        rw [turn_simple (e := { m with device }) ht hx hk, hfault]
      have hsink : m.turn.engine.device.sink = output.free.after (bytes ++ byte :: more) := by
        rw [device_turn_of_simple ht hx hk, hfree]
      have hemitted : emitted output
          ⟨⟨tape, source, (output.after bytes).count⟩, s, m.limit, m.executed + 1⟩ = bytes :=
        emitted_of_after rfl
      refine ⟨_, byte :: more, ⟨hm'.steps_of_stopped hstopped, ?_, ?_, m, hm, ?_, ?_, rfl⟩, ?_⟩
      · rw [hemitted, hlength]
      · rw [hemitted]
      · exact length_emitted_of_within hR
      · rw [emitted_of_free hsink, List.length_append, hlength, List.length_cons]
        omega
      · rw [hemitted, hsink]

theorem kept_outruns (output : Sink) (n : Nat) (commands : List Command) (fresh fresh' : Engine) :
    Kept (Outruns output n commands fresh fresh') where
  skeleton := fun _ _ h => h
  turn := by
    rintro x ⟨e, more, hcut, hx⟩
    have hfree : (output.free.after (e.emitted output ++ more)).capacity = none :=
      Sink.capacity_after _ _
    have hkept := Kept.of_requests (Device.exists_after_perform hfree)
    obtain ⟨more', hmore'⟩ := hkept.turn x ⟨[], hx⟩
    rw [← Sink.after_append, List.append_assoc] at hmore'
    exact ⟨e, more ++ more', hcut, hmore'⟩

/-! ## Failures of the output alone -/

/-- What becomes of the end of a run whose output never fails if its last flush fails like
that of this sink. -/
def underFailures (output : Sink) : Outcome Engine → Outcome Engine
  | .fault cause e => .fault cause (e.failingAs output)
  | .ok e =>
    match output.flushError with
    | some text => .fault (.stream text) (e.failingAs output)
    | none => .ok (e.failingAs output)

theorem Alike.eq_failingAs (h : Alike (Device.Within output n) e e') :
    e' = e.failingAs output := by
  obtain ⟨device, ⟨bytes, -, hsink, rfl⟩, rfl⟩ := h
  rw [failingAs, hsink, Sink.failingAs_after_free]

theorem Alike.flushError_eq (h : Alike (Device.Within output n) e e') :
    e.device.sink.flushError = none := by
  obtain ⟨device, ⟨bytes, -, hsink, -⟩, -⟩ := h
  rw [hsink, Sink.after_eq]
  rfl

end Engine

namespace Setup

open Engine

variable {setup : Setup} {script input : Source} {output : Sink} {n : Nat} {e : Engine}

theorem finish_failingAs (hflush : e.device.sink.flushError = none) (broken? : Option String) :
    finish broken? (e.failingAs output) = underFailures output (finish broken? e) := by
  cases broken? with
  | some text => rfl
  | none =>
      change (e.failingAs output).conclude = underFailures output e.conclude
      by_cases hopen : e.skeleton.openLoops = []
      · rw [conclude_eq_flush hopen, conclude_eq_flush (e := e.failingAs output) hopen]
        simp only [Device.flush, Sink.flush, failingAs, Sink.failingAs, hflush, Outcome.map,
          underFailures]
        cases output.flushError <;> rfl
      · rw [conclude_of_open hopen, conclude_of_open (e := e.failingAs output) hopen]
        rfl

theorem accepted_finish (broken? : Option String) (e : Engine) :
    (finish broken? e).state.device.sink.accepted = e.device.sink.accepted := by
  rcases finish_cases broken? e with ⟨-, -, hflush⟩ | ⟨-, cause, hfault⟩
  · rw [hflush, state_map, Device.state_flush]
  · rw [hfault, state_fault]

/-- All that a run writes it writes while it steps through its script. -/
theorem Passes.exists_stepping (h : setup.Passes script input output e) :
    ∃ m, (m = setup.start input output ∨
        Engine.Passes (setup.commands script) (setup.start input output) m) ∧
      m.device.sink.accepted = e.device.sink.accepted := by
  cases h with
  | start => exact ⟨_, .inl rfl, rfl⟩
  | stepping h => exact ⟨_, .inr h, rfl⟩
  | ended h =>
      rw [ends_iff] at h
      cases h with
      | fault h => exact ⟨_, h.passes, rfl⟩
      | ok h hfinish => exact ⟨_, h.passes, by rw [hfinish, accepted_finish, state_ok]⟩

/-! ## Output that does not fail -/

theorem start_within (setup : Setup) (input : Source) (output : Sink) (n : Nat) :
    Alike (Device.Within output n) (setup.start input output.free) (setup.start input output) :=
  ⟨_, ⟨[], Nat.zero_le n, rfl, rfl⟩, rfl⟩

/-- The actions of all extensions give up on their first refused request. -/
theorem givesUp_of_mem (script : Source)
    (hstrict : ∀ c ∈ setup.dialect.commands, c ∉ Command.builtins → GivesUp c)
    {c : Command} (hc : c ∈ setup.commands script) : GivesUp c := by
  have hmem := mem_dialect_of_mem_commands hc
  by_cases hbuiltin : c ∈ Command.builtins
  · exact givesUp_builtin hbuiltin
  · exact hstrict c hmem hbuiltin

section Cut

variable (hstrict : ∀ c ∈ setup.dialect.commands, c ∉ Command.builtins → GivesUp c)
  (hcapacity : output.capacity = some (output.accepted.size + n))
include hstrict hcapacity

/-- While there is room, the run is the one whose output never fails. -/
theorem run_eq_of_fits
    (hfits : ∀ m, setup.Passes script input output.free m → (m.emitted output).length ≤ n)
    (fuel : Nat) :
    setup.run fuel script input output =
      (setup.run fuel script input output.free).map (underFailures output) := by
  have hholds : (setup.start input output.free).skeleton.Holds GivesUp := .empty
  have halike := steps_alike (tracks_within hcapacity) hholds
    (fun c hc => givesUp_of_mem script hstrict hc)
    (setup.start_within input output n) fuel
  rcases halike with hends | ⟨m, m', hm, hm', hparts⟩
  · rw [run_eq, run_eq, ← commands]
    generalize steps fuel _ (setup.start input output.free) = o at hends ⊢
    generalize steps fuel _ (setup.start input output) = o' at hends ⊢
    cases hends with
    | none => rfl
    | some hends =>
        cases hends with
        | fault halike => exact congrArg (some ∘ Outcome.fault _) halike.eq_failingAs
        | ok halike =>
            refine congrArg some ?_
            rw [halike.eq_failingAs]
            exact finish_failingAs halike.flushError_eq script.broken?
  · obtain ⟨e, more, hcut, hsink⟩ := Outruns.of_parts hm hm' hparts
    obtain ⟨m, hm, -, hlt, -⟩ := hcut.turn
    exact absurd (hfits _ (.stepping hm.passes_turn)) (Nat.not_le_of_lt hlt)

/-! ## Output that fails -/

/-- Whatever writes more than there is room for has left the failing run behind. -/
theorem exists_outruns (hm : setup.Passes script input output.free e)
    (hlt : n < (e.emitted output).length) :
    ∃ m, Outruns output n (setup.commands script) (setup.start input output.free)
      (setup.start input output) m ∧ m.emitted output = e.emitted output := by
  obtain ⟨m, hsteps, haccepted⟩ := hm.exists_stepping
  have hemitted : m.emitted output = e.emitted output := by rw [emitted, emitted, haccepted]
  refine ⟨m, ?_, hemitted⟩
  rw [← hemitted] at hlt
  rcases hsteps with rfl | hpasses
  · have hnone : (setup.start input output.free).emitted output = [] := emitted_of_free rfl
    rw [hnone] at hlt
    exact absurd hlt (Nat.not_lt_zero n)
  · have hholds : (setup.start input output.free).skeleton.Holds GivesUp := .empty
    rcases hpasses.alike_or (tracks_within hcapacity) (kept_outruns output n _ _ _) hholds
        (fun c hc => givesUp_of_mem script hstrict hc)
        (setup.start_within input output n) (fun _ _ => Outruns.of_parts) with ⟨d', hR⟩ | houtruns
    · exact absurd (length_emitted_of_within hR) (Nat.not_le_of_lt hlt)
    · exact houtruns

end Cut

/-- The run ends at the first byte that its output refuses: it has written the `n` bytes before
that one and makes no further call, and the failing action is the last. -/
structure CutByOutput (setup : Setup) (script input : Source) (output : Sink) (n : Nat)
    (e : Engine) : Prop where
  ends : ∀ o, setup.Ends script input output o ↔ o = .fault output.refusal.fault e
  fault : ∃ text, output.refusal.fault = .stream text
  emitted : ∀ m, setup.Passes script input output.free m → n < (m.emitted output).length →
    e.emitted output = (m.emitted output).take n
  sink : e.device.sink =
    { output with
      accepted := output.accepted ++ (e.emitted output).toArray
      calls := output.interrupts.callsAfter^[n + 1] output.calls }
  executed : ∃ m, TurnsIn (setup.commands script) (setup.start input output.free) m ∧
    (m.emitted output).length ≤ n ∧ n < (m.turn.engine.emitted output).length ∧
    e.executed = m.executed + 1

theorem exists_cutByOutput
    (hstrict : ∀ c ∈ setup.dialect.commands, c ∉ Command.builtins → GivesUp c)
    (hcapacity : output.capacity = some (output.accepted.size + n))
    (hoverflows : ∃ m, setup.Passes script input output.free m ∧ n < (m.emitted output).length) :
    ∃ e, setup.CutByOutput script input output n e := by
  obtain ⟨m, hm, hlt⟩ := hoverflows
  obtain ⟨x, ⟨e, more, hcut, -⟩, -⟩ := exists_outruns hstrict hcapacity hm hlt
  have hends : setup.Ends script input output (.fault output.refusal.fault e) :=
    ends_iff.mpr (.fault hcut.ends)
  refine ⟨e, fun _ => hends.iff_eq, output.refusal.exists_fault_eq, fun m hm hlt => ?_, ?_,
    hcut.turn⟩
  · obtain ⟨x, ⟨e', more, hcut', hx⟩, hemitted⟩ := exists_outruns hstrict hcapacity hm hlt
    obtain ⟨-, rfl⟩ := Outcome.fault.inj (hcut'.ends.unique hcut.ends)
    rw [← hemitted, emitted_of_free hx, List.take_left' hcut'.length]
  · rw [hcut.sink, Sink.after_eq, hcut.length, Function.iterate_succ_apply']
    rfl

/-! ## Flushing -/

/-- The script is read to its end, and every step and the check at the end succeed. -/
structure Completes (setup : Setup) (script input : Source) (output : Sink) (e : Engine) :
    Prop where
  steps : Steps (setup.commands script) (setup.start input output) (.ok e)
  broken : script.broken? = none
  closed : e.skeleton.openLoops = []

/-- The output is flushed once, as the last thing of a run that completes, and in no other run.
If that fails, it is the failure of the run. -/
structure FlushedAtEnd (setup : Setup) (script input : Source) (output : Sink) : Prop where
  stepping : ∀ m, Engine.Passes (setup.commands script) (setup.start input output) m →
    m.device.sink.flushes = output.flushes
  completed : ∀ e, setup.Completes script input output e →
    ∀ o, setup.Ends script input output o ↔
      o = match output.flushError with
        | some text => .fault (.stream text) (e.flushed output)
        | none => .ok (e.flushed output)
  otherwise : ∀ o, setup.Ends script input output o →
    (∀ e, ¬setup.Completes script input output e) →
      o.fault? ≠ none ∧ o.state.device.sink.flushes = output.flushes

theorem finish_of_unflushed {broken? : Option String} (h : e.Unflushed output)
    (hbroken : broken? = none) (hclosed : e.skeleton.openLoops = []) :
    finish broken? e =
      match output.flushError with
      | some text => .fault (.stream text) (e.flushed output)
      | none => .ok (e.flushed output) := by
  rw [hbroken]
  change e.conclude = _
  rw [conclude_eq_flush hclosed, Device.flush_eq, h.2, flushed, ← h.1]
  cases output.flushError <;> rfl

theorem flushedAtEnd (setup : Setup) (script input : Source) (output : Sink) :
    setup.FlushedAtEnd script input output := by
  have hkept := kept_unflushed output
  have hstart : (setup.start input output).Unflushed output := ⟨rfl, rfl⟩
  refine ⟨fun m hm => (hkept.passes hstart hm).1, fun e h o => ?_, fun o h hnever => ?_⟩
  · have hends := ends_iff.mpr (.ok h.steps rfl)
    obtain ⟨fuel, hsteps⟩ := h.steps
    have hunflushed : e.Unflushed output := hkept.steps hstart hsteps
    rw [finish_of_unflushed hunflushed h.broken h.closed] at hends
    exact Ends.iff_eq hends
  · rw [ends_iff] at h
    cases h with
    | fault h =>
        obtain ⟨fuel, h⟩ := h
        exact ⟨nofun, (hkept.steps hstart h).1⟩
    | @ok e _ h hfinish =>
        rcases finish_cases script.broken? e with ⟨hbroken, hclosed, -⟩ | ⟨-, cause, hfault⟩
        · exact absurd ⟨h, hbroken, hclosed⟩ (hnever e)
        · obtain ⟨fuel, h⟩ := h
          rw [hfinish, hfault]
          exact ⟨nofun, (hkept.steps hstart h).1⟩

/-! ## Runs -/

/-- If the output has room for all that the run writes, the run is the same as with an output
that never fails, but for the last flush. If not, the run ends at the first byte beyond the room.
The output is flushed once, at the end of a run that completes. -/
theorem output_failure (setup : Setup)
    (hstrict : ∀ c ∈ setup.dialect.commands, c ∉ Command.builtins → GivesUp c)
    (script input : Source) :
    (∀ (output : Sink) (n : Nat), output.capacity = some (output.accepted.size + n) →
      ((∀ m, setup.Passes script input output.free m → (m.emitted output).length ≤ n) →
        ∀ fuel, setup.run fuel script input output =
          (setup.run fuel script input output.free).map (underFailures output)) ∧
      ((∃ m, setup.Passes script input output.free m ∧ n < (m.emitted output).length) →
        ∃ e, setup.CutByOutput script input output n e)) ∧
    ∀ output : Sink, setup.FlushedAtEnd script input output :=
  ⟨fun _ _ hcapacity => ⟨run_eq_of_fits hstrict hcapacity, exists_cutByOutput hstrict hcapacity⟩,
    setup.flushedAtEnd script input⟩

/-- Two bytes are written to an output that has room for one. -/
theorem output_failure_second_byte :
    let setup : Setup := { length := 1 }
    let script := Source.ofBytes (['.', '.'].map Char.toUInt8)
    let output : Sink := { capacity := some 1, refusal := .error "full" }
    ∃ e, setup.CutByOutput script (.ofBytes []) output 1 e := by
  intro setup script output
  have hsteps : Steps (setup.commands script) (setup.start (.ofBytes []) output.free) (.ok _) :=
    ⟨2, rfl⟩
  have hends : setup.Ends script (.ofBytes []) output.free (.ok _) :=
    ends_iff.mpr (.ok hsteps rfl)
  have hfailure := setup.output_failure (fun c hc hn => absurd hc hn) script (.ofBytes [])
  exact (hfailure.1 output 1 rfl).2 ⟨_, .ended hends, by decide⟩

end Setup

end TapeScript
