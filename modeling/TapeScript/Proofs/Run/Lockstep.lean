import TapeScript.Proofs.Engine.Lockstep
import TapeScript.Proofs.Run.Limit

/-! # Runs in lockstep

Two runs that start alike, through the same commands, end alike or neither ends, unless an
action tells their devices apart on the way. -/

namespace TapeScript

open Outcome

namespace Engine

variable {P : Command → Prop} {R : Device → Device → Prop}
  {Apart : Outcome Device → Outcome Device → Prop} {cs : List Command} {e e' m : Engine}
  {o : Outcome Engine}

/-- What the end of a script does to related devices leaves them related. -/
def FlushesAlike (R : Device → Device → Prop) : Prop :=
  ∀ ⦃d d'⦄, R d d' → Rel R R d.flush d'.flush

theorem conclude_alike (hR : FlushesAlike R) (h : Alike R e e') :
    Rel (Alike R) (Alike R) e.conclude e'.conclude := by
  obtain ⟨device, hd, rfl⟩ := h
  by_cases hopen : e.skeleton.openLoops = []
  · have hsame (d d' : Device) (hd : R d d') :
        Alike R { e with device := d } { e with device := d' } := ⟨d', hd, rfl⟩
    rw [conclude_eq_flush hopen, conclude_eq_flush (e := { e with device }) hopen]
    exact (hR hd).map hsame hsame
  · rw [conclude_of_open hopen, conclude_of_open (e := { e with device }) hopen]
    exact .fault ⟨device, hd, rfl⟩

theorem finish_alike (hR : FlushesAlike R) (h : Alike R e e') (broken? : Option String) :
    Rel (Alike R) (Alike R) (Setup.finish broken? e) (Setup.finish broken? e') := by
  cases broken? with
  | some text => exact .fault h
  | none => exact conclude_alike hR h

/-- What a turn of the stepping leaves behind and all that follows keeps holds in the end. -/
theorem TurnsIn.kept_until_end {Q : Engine → Prop} (hQ : Kept Q) (hm : TurnsIn cs e m)
    (h : Q m.turn.engine) (ho : Steps cs e o) : Q o.state := by
  induction hm with
  | here hm =>
      rw [steps_cons] at ho
      cases ho with
      | fault ho => exact hQ.of_turned h (hm.step_iff.mp ho)
      | ok ho hnext =>
          have hrest := hQ.of_turned h (hm.step_iff.mp ho)
          obtain ⟨fuel, hnext⟩ := hnext
          exact hQ.steps hrest hnext
  | @later fuel c cs e e' m hstep _ ih =>
      rw [steps_cons] at ho
      cases ho with
      | fault ho => cases ho.unique (steady_step c e) ⟨fuel, hstep⟩
      | ok ho hnext =>
          obtain rfl := Outcome.ok.inj (ho.unique (steady_step c e) ⟨fuel, hstep⟩)
          exact ih h hnext

end Engine

namespace Setup

open Engine

variable {P : Command → Prop} {R : Device → Device → Prop}
  {Apart : Outcome Device → Outcome Device → Prop} {setup setup' : Setup}
  {script script' input input' : Source} {output output' : Sink}

/-- Both runs go through the same commands and find the same behind them, and their engines are
alike at the start. -/
structure StartAlike (R : Device → Device → Prop) (setup setup' : Setup)
    (script script' input input' : Source) (output output' : Sink) : Prop where
  commands : setup'.commands script' = setup.commands script
  broken : script'.broken? = script.broken?
  engine : Alike R (setup.start input output) (setup'.start input' output')

theorem run_alike (hT : Tracks P R Apart) (hR : FlushesAlike R)
    (hP : ∀ c ∈ setup.commands script, P c)
    (h : StartAlike R setup setup' script script' input input' output output') (fuel : Nat) :
    EndAlike R (setup.run fuel script input output) (setup'.run fuel script' input' output') ∨
      Splits (TurnsIn (setup.commands script)) R Apart (setup.start input output)
        (setup'.start input' output') := by
  have hholds : (setup.start input output).skeleton.Holds P := .empty
  have hsteps := steps_alike hT hholds hP h.engine fuel
  refine hsteps.imp_left fun hends => ?_
  rw [run_eq, run_eq, ← commands, ← commands, h.commands, h.broken]
  generalize steps fuel _ (setup.start input output) = o at hends ⊢
  generalize steps fuel _ (setup'.start input' output') = o' at hends ⊢
  cases hends with
  | none => exact .none
  | some hends =>
      cases hends with
      | fault halike => exact .some (.fault halike)
      | ok halike => exact .some (finish_alike hR halike script.broken?)

/-- Where one run ends so does the other. -/
theorem ends_alike (hT : Tracks P R Apart) (hR : FlushesAlike R)
    (hP : ∀ c ∈ setup.commands script, P c)
    (h : StartAlike R setup setup' script script' input input' output output') :
    Matches (Rel (Alike R) (Alike R)) (setup.Ends script input output)
        (setup'.Ends script' input' output') ∨
      Splits (TurnsIn (setup.commands script)) R Apart (setup.start input output)
        (setup'.start input' output') := by
  by_cases hsplits : Splits (TurnsIn (setup.commands script)) R Apart (setup.start input output)
      (setup'.start input' output')
  · exact .inr hsplits
  · exact .inl (.of_fuel fun fuel => (run_alike hT hR hP h fuel).resolve_right hsplits)

end Setup

end TapeScript
