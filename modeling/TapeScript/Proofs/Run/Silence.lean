import TapeScript.Proofs.Run.Framing
import TapeScript.Proofs.Run.Refusal

/-! # Runs that may not write

A run whose output refuses every byte ends well if and only if it does so with a working output
and writes nothing. -/

namespace TapeScript

open Outcome

/-- A sink that accepts no byte at all. -/
def Sink.refusing (text : String) : Sink := { capacity := some 0, refusal := .error text }

/-- Something was written. -/
def Device.Written (d : Device) : Prop := d.sink.accepted ≠ #[]

theorem Device.Written.perform {d : Device} (h : d.Written) (request : Request) :
    (d.perform request).2.Written := by
  rcases d.perform_cases request with ⟨tape, hd⟩ | hd | ⟨byte, hd⟩ <;> rw [hd]
  · exact h
  · exact h
  · intro hnone
    have hprefix := d.sink.prefix_write byte
    rw [hnone, List.prefix_nil, Array.toList_eq_nil_iff] at hprefix
    exact h hprefix

namespace Engine

variable {e e' : Engine} {text : String}

theorem kept_written : Kept fun e => e.device.Written :=
  Kept.of_requests fun request _ h => h.perform request

/-- From an empty output on, what was written is all that was accepted. -/
theorem written_of_emitted {n : Nat} (h : n < (e.emitted (.refusing text)).length) :
    e.device.Written := by
  intro hnone
  rw [emitted, hnone] at h
  cases h

theorem Alike.accepted_eq (h : Alike Device.SameData e e') :
    e'.device.sink.accepted = e.device.sink.accepted := by
  have hplain := congrArg (·.device.sink.accepted) h.plain_eq
  exact hplain.symm

end Engine

namespace Setup

open Engine

variable {setup : Setup} {script input : Source} {output output' : Sink} {text : String}
  {e : Engine} {o : Outcome Engine} {fuel : Nat}

/-- Runs to sinks that differ only in their frames end alike. -/
theorem run_alike_of_plain_eq (setup : Setup) (script : Source) (hinput : input.chunk ≠ some 0)
    (h : output.plain = output'.plain) (fuel : Nat) :
    EndAlike Device.SameData (setup.run fuel script input output)
      (setup.run fuel script input output') := by
  have hdevice : Device.SameData (setup.start input output).device
      (setup.start input output').device :=
    ⟨congrArg (Device.mk _ _) h, hinput, hinput⟩
  have hstart : StartAlike Device.SameData setup setup script script input input output output' :=
    ⟨rfl, rfl, _, hdevice, rfl⟩
  rcases run_alike (tracks_sameData fun _ => True) flushesAlike_sameData (fun _ _ => trivial)
      hstart fuel with hends | ⟨m, m', -, -, hparts⟩
  · exact hends
  · cases hparts with
    | intro _ _ _ _ hfalse => exact hfalse.elim

/-- A sink that was freed of its refusals is like one that never had any. -/
theorem matches_free (setup : Setup) (script : Source) (hinput : input.chunk ≠ some 0)
    (text : String) :
    Matches (Rel (Alike Device.SameData) (Alike Device.SameData))
      (setup.Ends script input (Sink.refusing text).free) (setup.Ends script input {}) := by
  have hplain : (Sink.refusing text).free.plain = Sink.plain {} := rfl
  exact .of_fuel (setup.run_alike_of_plain_eq script hinput hplain)

/-- A run that was cut off would have written something. -/
theorem written_of_cut {n : Nat} (hcut : setup.CutByOutput script input (.refusing text) n e)
    (ho : setup.Ends script input (Sink.refusing text).free o) : o.state.device.Written := by
  obtain ⟨m, hm, -, hlt, -⟩ := hcut.executed
  rw [ends_iff] at ho
  cases ho with
  | fault hsteps => exact hm.kept_until_end kept_written (written_of_emitted hlt) hsteps
  | ok hsteps hfinish =>
      have hwritten := hm.kept_until_end kept_written (written_of_emitted hlt) hsteps
      rw [hfinish, Device.Written, accepted_finish]
      exact hwritten

section Refusing

variable (hstrict : ∀ c ∈ setup.dialect.commands, c ∉ Command.builtins → GivesUp c)
  (hinput : input.chunk ≠ some 0)
include hstrict

/-- Either a run writes nothing and no refusal matters, or it ends at its first byte. -/
theorem refusing_cases (script input : Source) (text : String) :
    ((∀ o, setup.Ends script input (Sink.refusing text).free o → ¬o.state.device.Written) ∧
      ∀ fuel, setup.run fuel script input (.refusing text) =
        (setup.run fuel script input (Sink.refusing text).free).map
          (underFailures (.refusing text))) ∨
    ∃ e, setup.CutByOutput script input (.refusing text) 0 e := by
  by_cases hfits : ∀ m, setup.Passes script input (Sink.refusing text).free m →
      (m.emitted (.refusing text)).length ≤ 0
  · refine .inl ⟨fun o ho => ?_, run_eq_of_fits hstrict rfl hfits⟩
    have hnone := hfits _ (.ended ho)
    rw [Nat.le_zero, List.length_eq_zero_iff] at hnone
    simpa [Device.Written, emitted, Sink.refusing] using hnone
  · simp only [not_forall, Nat.not_le] at hfits
    obtain ⟨m, hm, hlt⟩ := hfits
    exact .inr (exists_cutByOutput hstrict rfl ⟨m, hm, hlt⟩)

include hinput

/-- A run that ends with a working output ends also with one that refuses every byte. -/
theorem exists_ends_refusing (text : String) (h : setup.Ends script input {} o) :
    ∃ o', setup.Ends script input (.refusing text) o' := by
  obtain ⟨o₁, hfree, -⟩ := (setup.matches_free script hinput text).right o h
  rcases refusing_cases hstrict script input text with ⟨-, hrun⟩ | ⟨e, hcut⟩
  · obtain ⟨fuel, hfree⟩ := hfree
    exact ⟨_, fuel, (hrun fuel).trans (congrArg _ hfree)⟩
  · exact ⟨_, (hcut.ends _).mpr rfl⟩

/-- Where every byte is refused, a run ends well if and only if it would write none. -/
theorem ends_refusing (h : setup.Ends script input (.refusing text) o) :
    o.fault? = none ↔ ∃ e, setup.Ends script input {} (.ok e) ∧ ¬e.device.Written := by
  have hmatches := setup.matches_free script hinput text
  rcases refusing_cases hstrict script input text with ⟨hsilent, hrun⟩ | ⟨e, hcut⟩
  · obtain ⟨fuel, h⟩ := h
    obtain ⟨o₁, hfree, rfl⟩ := Option.map_eq_some_iff.mp ((hrun fuel).symm.trans h)
    obtain ⟨o₂, hends, hrel⟩ := hmatches.left o₁ ⟨fuel, hfree⟩
    cases hrel with
    | @ok e₁ e₂ halike =>
        have hsilent₁ := hsilent _ ⟨fuel, hfree⟩
        refine iff_of_true rfl ⟨e₂, hends, fun hwritten => hsilent₁ ?_⟩
        rwa [Device.Written, halike.accepted_eq] at hwritten
    | fault halike =>
        refine iff_of_false nofun ?_
        rintro ⟨e, hok, -⟩
        cases hok.unique hends
  · obtain rfl := (hcut.ends o).mp h
    refine iff_of_false nofun ?_
    rintro ⟨e₂, hok, hsilent⟩
    obtain ⟨o₁, hfree, hrel⟩ := hmatches.right _ hok
    cases hrel with
    | ok halike =>
        have hwritten := written_of_cut hcut hfree
        rw [state_ok, Device.Written, ← halike.accepted_eq] at hwritten
        exact hsilent hwritten

end Refusing

end Setup

end TapeScript
