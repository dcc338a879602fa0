import TapeScript.Proofs.Engine.Feed
import TapeScript.Run

/-! # The engine refines the evaluation of trees -/

namespace TapeScript

open Outcome Script

theorem Outcome.Rel.map_eq {σ τ : Type} {g : σ → τ} {okay failed : σ → τ → Prop} {o : Outcome σ}
    {o' : Outcome τ} (h : Rel okay failed o o') (hok : ∀ s t, okay s t → g s = t)
    (hfailed : ∀ s t, failed s t → g s = t) : o.map g = o' := by
  cases h with
  | ok h => exact congrArg Outcome.ok (hok _ _ h)
  | fault h => exact congrArg (Outcome.fault _) (hfailed _ _ h)

namespace Engine

theorem resting_fresh (device : Device) (limit : Option Nat) :
    Resting limit [] ⟨device, 0⟩ { device, limit } :=
  ⟨.refl _, rfl, rfl, rfl⟩

/-- A fresh engine that is fed the beginning of a tree ends when its evaluation up to there
does, with the same ending and the same progress. -/
theorem matches_evalsTo (device : Device) (limit : Option Nat) {t : Script} (ht : t.Proper)
    {k : Nat} (hk : k ≤ t.length) :
    Matches (fun o o' => o.map progress = o') (Steps (t.toCommands.take k) { device, limit })
      (EvalsTo limit t k ⟨device, 0⟩) := by
  refine ((resting_fresh device limit).feeds ht hk).mono fun _ _ h => h.map_eq ?_ ?_
  · exact fun _ _ hfed => hfed.progress_eq
  · exact fun _ _ hp => hp

theorem matches_evals (device : Device) (limit : Option Nat) {t : Script} (ht : t.Proper) :
    Matches (fun o o' => o.map progress = o') (Steps t.toCommands { device, limit })
      (Evals limit t ⟨device, 0⟩) := by
  have h := matches_evalsTo device limit ht (Nat.le_refl t.length)
  rw [length, List.take_length] at h
  exact h.congr (fun _ => Iff.rfl) fun o => (evalsTo_length t _ o).symm

/-- A balanced script is the script of a tree, and stepping an engine through it ends if and
only if the evaluation of the tree ends, with the same fault or none, on the same device and
after the same number of actions. -/
theorem steps_iff_eval (setup : Setup) (script : List UInt8) (input : Source) (output : Sink)
    (h : Bracket.Balanced (Bracket.ofCommands (setup.dialect.commandsOf script))) :
    ∃ t, ofCommands? (setup.dialect.commandsOf script) = some t ∧ t.Proper ∧
      t.toCommands = setup.dialect.commandsOf script ∧
      ∀ o,
        (∃ fuel, ((setup.start input output).steps fuel (setup.dialect.commandsOf script)).map
          (·.map progress) = some o) ↔
        ∃ fuel, t.eval setup.limit fuel ⟨(setup.start input output).device, 0⟩ = some o := by
  obtain ⟨t, ht, hcommands, hproper⟩ := exists_ofCommands? h
  have hmatches := matches_evals (setup.start input output).device setup.limit hproper
  refine ⟨t, ht, hproper, hcommands, fun o => ?_⟩
  rw [hcommands] at hmatches
  constructor
  · intro ho
    obtain ⟨fuel, ho⟩ := ho
    obtain ⟨a, ha, hmap⟩ := Option.map_eq_some_iff.mp ho
    obtain ⟨b, hb, hab⟩ := hmatches.left a ⟨fuel, ha⟩
    exact hmap ▸ hab ▸ hb
  · intro ho
    obtain ⟨a, ha, hab⟩ := hmatches.right o ho
    obtain ⟨fuel, ha⟩ := ha
    exact ⟨fuel, Option.map_eq_some_iff.mpr ⟨a, ha, hab⟩⟩

theorem steps_iff_eval_countdown :
    let setup : Setup := { length := 2, limit := some 3 }
    let commands := setup.dialect.commandsOf (['+', '[', '-', ']'].map Char.toUInt8)
    Bracket.Balanced (Bracket.ofCommands commands) ∧
      ∃ t, ofCommands? commands = some t ∧ t.toCommands = commands ∧ ∀ o,
        (∃ fuel, ((setup.start (.ofBytes []) {}).steps fuel commands).map (·.map progress) =
          some o) ↔
        ∃ fuel, t.eval setup.limit fuel ⟨(setup.start (.ofBytes []) {}).device, 0⟩ = some o := by
  intro setup commands
  obtain ⟨t, ht, -, hcommands, h⟩ := steps_iff_eval setup (['+', '[', '-', ']'].map Char.toUInt8)
    (.ofBytes []) {} (by decide)
  exact ⟨by decide, t, ht, hcommands, h⟩

end Engine

end TapeScript
