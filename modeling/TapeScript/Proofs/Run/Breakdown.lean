import TapeScript.Proofs.Run.Refusal

/-! # Scripts that break off

A script that breaks off is stepped through up to the break, however its portions are cut. What
is said behind the break comes last: a fault of any step before it is reported instead. -/

namespace TapeScript

open Outcome

namespace Source

variable {s : Source} {m : Nat} {text : String}

/-- Behind so many bytes of its data the source breaks off. -/
theorem delivered_of_breakdown (hc : s.chunk ≠ some 0) (hb : s.breakdown = some ⟨m, text⟩)
    (hm : m ≤ s.rest.length) : s.delivered = s.rest.take m ∧ s.broken? = some text := by
  obtain ⟨hdelivered, hbroken⟩ := delivered_of_chunk hc
  rw [hdelivered, hbroken, content, failure?, hb]
  simp [hm]

/-- A break behind the end is never met. -/
theorem delivered_of_late_breakdown (hb : s.breakdown = some ⟨m, text⟩) (hm : s.rest.length < m) :
    s.delivered = delivered { s with breakdown := none } ∧
      s.broken? = broken? { s with breakdown := none } := by
  have hfull : s.rest.take m = s.rest := List.take_of_length_le (Nat.le_of_lt hm)
  have hleft : m ≠ 0 := by omega
  constructor
  · simp only [delivered, content, hb, Option.map_some, Option.getD_some, Option.map_none,
      Option.getD_none, hfull, List.take_length]
  · by_cases hc : s.chunk = some 0 <;> simp [broken?, failure?, hb, hc, hleft, hm]

end Source

namespace Setup

open Engine

variable {setup : Setup} {script input : Source} {output : Sink}

/-- The run steps through these bytes and no further. If that fails so does the run, and if it
goes well the run fails with what is said behind the bytes, whether or not loops are open. The
output is never flushed. -/
structure StopsBehind (setup : Setup) (bytes : List UInt8) (text : String)
    (script input : Source) (output : Sink) : Prop where
  failed : ∀ cause e,
    Steps (setup.dialect.commandsOf bytes) (setup.start input output) (.fault cause e) →
      ∀ o, setup.Ends script input output o ↔ o = .fault cause e
  stepped : ∀ e, Steps (setup.dialect.commandsOf bytes) (setup.start input output) (.ok e) →
    ∀ o, setup.Ends script input output o ↔ o = .fault (.stream text) e
  endless : (∀ o, ¬Steps (setup.dialect.commandsOf bytes) (setup.start input output) o) →
    ∀ o, ¬setup.Ends script input output o
  unflushed : ∀ m, setup.Passes script input output m →
    m.device.sink.flushes = output.flushes

/-- Before the end of its script a run flushes nothing. -/
theorem flushes_of_broken {text : String} (hbroken : script.broken? = some text) {m : Engine}
    (hm : setup.Passes script input output m) : m.device.sink.flushes = output.flushes := by
  have hflushed := setup.flushedAtEnd script input output
  cases hm with
  | start => rfl
  | stepping h => exact hflushed.stepping m h
  | ended h =>
      refine (hflushed.otherwise _ h fun e hcompletes => ?_).2
      rw [hcompletes.broken] at hbroken
      cases hbroken

theorem stopsBehind {bytes : List UInt8} {text : String} (hdelivered : script.delivered = bytes)
    (hbroken : script.broken? = some text) :
    setup.StopsBehind bytes text script input output := by
  have hfinish (e : Engine) : finish script.broken? e = .fault (.stream text) e := by
    rw [hbroken]
    rfl
  rw [← hdelivered]
  refine ⟨fun cause e h o => ?_, fun e h o => ?_, fun h o hends => ?_,
    fun m => flushes_of_broken hbroken⟩
  · exact Ends.iff_eq (ends_iff.mpr (.fault h))
  · exact Ends.iff_eq (ends_iff.mpr (.ok h (hfinish e).symm))
  · obtain ⟨o', hsteps, -⟩ := hends.exists_steps
    exact h o' hsteps

/-- A script that breaks off behind some of its bytes is executed up to there, and is as any
other if it ends before. -/
theorem script_breaks_off (setup : Setup) (hchunk : script.chunk ≠ some 0) {m : Nat}
    {text : String} (hbreak : script.breakdown = some ⟨m, text⟩) (input : Source)
    (output : Sink) :
    (m ≤ script.rest.length →
      setup.StopsBehind (script.rest.take m) text script input output) ∧
    (script.rest.length < m → ∀ fuel,
      setup.run fuel script input output =
        setup.run fuel { script with breakdown := none } input output) := by
  constructor
  · intro hm
    obtain ⟨hdelivered, hbroken⟩ := Source.delivered_of_breakdown hchunk hbreak hm
    exact stopsBehind hdelivered hbroken
  · intro hm fuel
    obtain ⟨hdelivered, hbroken⟩ := Source.delivered_of_late_breakdown hbreak hm
    rw [run_eq, run_eq, hdelivered, hbroken]

/-- The break comes inside a loop that was entered and has written a byte. -/
theorem script_breaks_off_in_loop :
    let setup : Setup := { length := 1 }
    let script : Source :=
      { rest := ['+', '[', '.', ']'].map Char.toUInt8, chunk := some 2,
        breakdown := some ⟨3, "gone"⟩, interrupts := { period := 2 } }
    ∃ e, setup.Ends script (.ofBytes []) {} (.fault (.stream "gone") e) ∧
      e.skeleton.depth = 1 ∧ e.device.sink.accepted = #[1] ∧ e.device.sink.flushes = 0 := by
  intro setup script
  have hsteps : Steps (setup.dialect.commandsOf (script.rest.take 3))
      (setup.start (.ofBytes []) {}) (.ok _) := ⟨3, rfl⟩
  have hchunk : script.chunk ≠ some 0 := by decide
  have hbroken := setup.script_breaks_off hchunk rfl (.ofBytes []) {}
  have hends := ((hbroken.1 (by decide)).stepped _ hsteps _).mpr rfl
  exact ⟨_, hends, rfl, rfl, rfl⟩

end Setup

end TapeScript
