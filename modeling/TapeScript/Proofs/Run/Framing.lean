import TapeScript.Proofs.Engine.Requests
import TapeScript.Proofs.Run.Lockstep
import TapeScript.Proofs.Stream.Framing

/-! # Runs do not see how streams are framed

Two runs on the same data take the same turns, whatever the portions and interruptions of the
script, the input and the output. -/

namespace TapeScript

open Outcome

namespace Engine

def plain (e : Engine) : Engine := { e with device := e.device.plain }

variable {e e' : Engine}

theorem tracks_sameData (P : Command → Prop) :
    Tracks P Device.SameData fun _ _ => False where
  current := by
    intro d d' h
    have htape : d.plain.tape = d'.plain.tape := congrArg Device.tape h.plain
    exact congrArg Tape.current htape
  run := by
    intro c action d d' _ _ h
    exact .inl (action.run_alike (fun request _ _ h => h.perform request) h)

theorem Alike.plain_eq (h : Alike Device.SameData e e') : e.plain = e'.plain := by
  obtain ⟨device, hR, rfl⟩ := h
  simp only [plain, hR.plain]

theorem flushesAlike_sameData : FlushesAlike Device.SameData :=
  fun _ _ h => h.flush

end Engine

namespace Setup

open Engine

variable {setup : Setup} {fuel : Nat} {script input : Source} {output : Sink}

theorem start_alike (setup : Setup) (hinput : input.chunk ≠ some 0) (output : Sink) :
    Alike Device.SameData (setup.start input output) (setup.start input.plain output.plain) := by
  refine ⟨_, ⟨?_, hinput, (Option.some_ne_none 0).symm⟩, rfl⟩
  exact (Device.plain_plain _).symm

/-- The run on framed streams is the run on plain ones, step by step: no action tells them
apart. -/
theorem run_plain_alike (setup : Setup) (fuel : Nat) (hscript : script.chunk ≠ some 0)
    (hinput : input.chunk ≠ some 0) (output : Sink) :
    EndAlike Device.SameData (setup.run fuel script input output)
      (setup.run fuel script.plain input.plain output.plain) := by
  obtain ⟨hdelivered, hbroken⟩ := Source.delivered_plain hscript
  have hstart : StartAlike Device.SameData setup setup script script.plain input input.plain
      output output.plain :=
    ⟨by rw [commands, commands, hdelivered], hbroken, setup.start_alike hinput output⟩
  have htracks := tracks_sameData fun _ => True
  rcases run_alike htracks flushesAlike_sameData (fun _ _ => trivial) hstart fuel with
    hends | ⟨m, m', -, -, hparts⟩
  · exact hends
  · cases hparts with
    | intro _ _ _ _ hfalse => exact hfalse.elim

/-! ## In order -/

/-- So many bytes of the source are handed out, and the sink has kept what it had. -/
structure Proceeds (input : Source) (output : Sink) (n : Nat) (d : Device) : Prop where
  le : n ≤ input.rest.length
  rest : d.source.rest = input.rest.drop n
  taken : d.source.taken = input.taken + n
  accepted : output.accepted.toList <+: d.sink.accepted.toList

theorem Proceeds.requests (request : Request) (d : Device)
    (h : ∃ n, Proceeds input output n d) :
    ∃ n, Proceeds input output n (d.perform request).2 := by
  obtain ⟨n, hn⟩ := h
  rcases d.perform_cases request with ⟨tape, hd⟩ | hd | ⟨byte, hd⟩ <;> rw [hd]
  · exact ⟨n, hn.le, hn.rest, hn.taken, hn.accepted⟩
  · obtain ⟨k, hk, hrest, htaken⟩ := d.source.readByte_inOrder
    refine ⟨n + k, ?_, ?_, ?_, hn.accepted⟩
    · rw [hn.rest, List.length_drop] at hk
      have := hn.le
      omega
    · rw [hrest, hn.rest, List.drop_drop]
    · rw [htaken, hn.taken, Nat.add_assoc]
  · exact ⟨n, hn.le, hn.rest, hn.taken, hn.accepted.trans (d.sink.prefix_write byte)⟩

theorem Proceeds.of_run {o : Outcome Engine} (h : setup.run fuel script input output = some o) :
    ∃ n, Proceeds input output n o.state.device := by
  have hkept := Kept.of_requests (P := fun d => ∃ n, Proceeds input output n d) requests
  have hstart : ∃ n, Proceeds input output n (setup.start input output).device :=
    ⟨0, Nat.zero_le _, rfl, rfl, List.prefix_rfl⟩
  rw [run_eq, chain_eq_some] at h
  cases h with
  | fault h => exact hkept.steps hstart h
  | ok h hfinish =>
      have hsteps := hkept.steps hstart h
      rw [← Option.some.inj hfinish]
      rcases finish_cases script.broken? _ with ⟨-, -, hflush⟩ | ⟨-, cause, hfault⟩
      · obtain ⟨n, hn⟩ := hsteps
        rw [hflush, state_map, Device.state_flush]
        exact ⟨n, hn.le, hn.rest, hn.taken, hn.accepted⟩
      · rw [hfault]
        exact hsteps

/-! ## Runs -/

/-- What a run on streams that never fail answers. -/
def answer : Outcome Engine → Except Fault (Array UInt8 × Tally)
  | .ok e => .ok (e.device.sink.accepted, e.tally)
  | .fault cause _ => .error cause

theorem runPlain_eq_answer (setup : Setup) (fuel : Nat) (script input : List UInt8) :
    setup.runPlain fuel script input =
      (setup.run fuel (.ofBytes script) (.ofBytes input) {}).map answer := by
  rw [runPlain]
  rfl

theorem answer_plain (o : Outcome Engine) : answer (o.map Engine.plain) = answer o := by
  cases o <;> rfl

/-- The framing of streams cannot be observed: a run on framed streams ends as the run on plain
ones does, up to the frames, and it takes its input and gives its output in order. If no failure
is configured it answers as a run on bytes. -/
theorem framing_unobservable (setup : Setup) (fuel : Nat) (hscript : script.chunk ≠ some 0)
    (hinput : input.chunk ≠ some 0) (output : Sink) :
    (setup.run fuel script input output).map (·.map Engine.plain) =
        (setup.run fuel script.plain input.plain output.plain).map (·.map Engine.plain) ∧
      (∀ o, setup.run fuel script input output = some o →
        ∃ n, Proceeds input output n o.state.device) ∧
      (script.Intact → input.Intact → output.Intact →
        (setup.run fuel script input output).map answer =
          setup.runPlain fuel script.rest input.rest) := by
  have hplain : (setup.run fuel script input output).map (·.map Engine.plain) =
      (setup.run fuel script.plain input.plain output.plain).map (·.map Engine.plain) := by
    have halike := setup.run_plain_alike fuel hscript hinput output
    generalize setup.run fuel script input output = o at halike ⊢
    generalize setup.run fuel script.plain input.plain output.plain = o' at halike ⊢
    cases halike with
    | none => rfl
    | some hends =>
        refine congrArg some (map_eq_map_iff.mpr ?_)
        exact hends.imp (fun _ _ h => h.plain_eq) fun _ _ h => h.plain_eq
  refine ⟨hplain, fun o h => Proceeds.of_run h, fun hs hi ho => ?_⟩
  have hanswer := congrArg (Option.map answer) hplain
  simp only [Option.map_map, Function.comp_def, answer_plain] at hanswer
  rw [hanswer, hs.plain_eq, hi.plain_eq, ho.plain_eq, runPlain_eq_answer]

/-- A byte that is read and written, with all three streams framed in their own ways. -/
theorem framing_unobservable_echo :
    (run { length := 1 } 2
        { rest := [',', '.'].map Char.toUInt8, chunk := some 1, interrupts := { period := 2 } }
        { rest := [97], chunk := some 2, interrupts := { period := 3 } }
        { interrupts := { period := 4 } }).map answer =
      some (.ok (#[97], { executed := 2, recorded := 2 })) := by
  have hunobservable := @framing_unobservable
    { rest := [',', '.'].map Char.toUInt8, chunk := some 1, interrupts := { period := 2 } }
    { rest := [97], chunk := some 2, interrupts := { period := 3 } }
    { length := 1 } 2 (by decide) (by decide) { interrupts := { period := 4 } }
  rw [hunobservable.2.2 ⟨rfl, rfl⟩ ⟨rfl, rfl⟩ ⟨rfl, rfl, rfl, rfl⟩, runPlain_eq]
  rfl

end Setup

end TapeScript
