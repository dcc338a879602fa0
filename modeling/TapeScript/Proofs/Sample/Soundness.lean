import TapeScript.Proofs.Engine.Refinement
import TapeScript.Proofs.Run.Limit
import TapeScript.Proofs.Sample.Drawing
import TapeScript.Proofs.Sample.Running

/-! # Generated scripts run well

A script that a shape allows is balanced, and its run ends well on the cell on which it began,
without going beyond the cells that are set aside. -/

namespace TapeScript

open Outcome

/-- The run ends well on the first cell, and never goes beyond the cell `bound`. -/
structure Setup.EndsWithin (setup : Setup) (script input : Source) (output : Sink)
    (bound : Nat) : Prop where
  ends : ∃ e, setup.Ends script input output (.ok e) ∧ e.device.tape.cursor = 0
  within : ∀ m, setup.Passes script input output m → m.device.tape.cursor ≤ bound

namespace Sample

open TapeScript.Bracket Script

/-- Whatever it reads, the script does no harm on a tape that is long enough for its shape. -/
structure Tame (shape : Shape) (script : List UInt8) : Prop where
  nonempty : script ≠ []
  balanced : Balanced (ofBytes script)
  peak : peakFrom 0 (ofBytes script) ≤ shape.depth + 4
  runs : ∀ (length : Nat) (hl : shape.topCell < length) (source input : Source) (output : Sink),
    source.delivered = script → source.broken? = none →
    Device.Infallible ⟨.blank length (Nat.zero_lt_of_lt hl), input, output⟩ →
    (Setup.ofTape length (Nat.zero_lt_of_lt hl) none).EndsWithin source input output
      (2 * shape.depth + 1)

variable {shape : Shape} {plan : Plan} {length : Nat} {hl : 0 < length} {d : Device}
  {source input : Source} {output : Sink}

/-! ## Stepping through a plan -/

theorem lt_size_blank (hl : 0 < length) (h : shape.topCell < length) :
    2 * shape.depth + 1 < (Tape.blank length hl).cells.size := by
  rw [Tape.blank, Array.size_replicate]
  exact Nat.lt_trans (Nat.lt_succ_self _) h

/-- Stepping through an allowed plan ends well on the cell on which it began, or a limit stops it
in bounds. -/
theorem exists_steps_of_allows (hplan : shape.Allows plan) (hd : Stands 0 d)
    (hsize : 2 * shape.depth + 1 < d.tape.cells.size) (limit : Option Nat) :
    ∃ o, Engine.Steps (Dialect.builtin.commandsOf plan.render) { device := d, limit } o ∧
      Assured limit (2 * shape.depth + 1) (Stands 0) (o.map Engine.progress) := by
  obtain ⟨-, hfits⟩ := hplan
  have hrenders := Plan.renders hfits
  have hassures : Assures limit (2 * shape.depth + 1) (plan.tree .done) d (Stands 0) :=
    Plan.assures hfits (by omega) hd hsize fun d' hstands _ => assures_done hstands
  obtain ⟨_, hevals, hassured⟩ := hassures 0
  have hmatches := Engine.matches_evals d limit (hrenders.proper .done .done)
  obtain ⟨o, hsteps, rfl⟩ := hmatches.right _ hevals
  rw [hrenders.toCommands, Script.toCommands, List.append_nil] at hsteps
  exact ⟨o, hsteps, hassured⟩

theorem cursor_le_of_assured {limit : Option Nat} {bound : Nat} {o : Outcome Engine}
    (h : Assured limit bound (Stands 0) (o.map Engine.progress)) :
    o.state.device.tape.cursor ≤ bound := by
  cases o with
  | ok e =>
      cases h with
      | ok h => exact Nat.le_trans (Nat.le_of_eq h.cursor) (Nat.zero_le bound)
  | fault cause e =>
      cases h with
      | cut _ h => exact h

/-! ## Whole runs -/

theorem ends_of_allows (hplan : shape.Allows plan) (hsize : shape.topCell < length)
    (hdelivered : source.delivered = plan.render) (hbroken : source.broken? = none)
    (hd : Device.Infallible ⟨.blank length hl, input, output⟩) :
    ∃ e, (Setup.ofTape length hl none).Ends source input output (.ok e) ∧
      e.device.tape.cursor = 0 := by
  obtain ⟨o, hsteps, hassured⟩ :=
    exists_steps_of_allows hplan ⟨hd, rfl⟩ (lt_size_blank hl hsize) none
  cases o with
  | fault cause e => cases hassured with | cut hlimit => cases hlimit
  | ok e =>
      cases hassured with
      | ok hstands =>
          have hcommands : (Setup.ofTape length hl none).commands source =
              Dialect.builtin.commandsOf plan.render := by rw [Setup.commands, hdelivered]
          rw [← hcommands] at hsteps
          have hbalanced := (Plan.nests hplan.2).balanced
          rw [← ofCommands_builtin, ← hcommands] at hbalanced
          obtain ⟨e', hends, htape⟩ :=
            Setup.ends_ok_of_steps hbalanced hbroken hstands.infallible.flushError hsteps
          exact ⟨e', hends, htape ▸ hstands.cursor⟩

theorem cursor_le_of_passes (hplan : shape.Allows plan) (hsize : shape.topCell < length)
    (hdelivered : source.delivered = plan.render) (hbroken : source.broken? = none)
    (hd : Device.Infallible ⟨.blank length hl, input, output⟩) {m : Engine}
    (hm : (Setup.ofTape length hl none).Passes source input output m) :
    m.device.tape.cursor ≤ 2 * shape.depth + 1 := by
  cases hm with
  | start => exact Nat.zero_le _
  | stepping hm =>
      -- a limit of as many actions stops the run on the same device
      obtain ⟨o, hsteps, hassured⟩ :=
        exists_steps_of_allows hplan ⟨hd, rfl⟩ (lt_size_blank hl hsize) (some m.executed)
      rw [Setup.commands, hdelivered] at hm
      rw [← (Engine.device_of_passes rfl hm rfl hsteps).1]
      exact cursor_le_of_assured hassured
  | ended hends =>
      obtain ⟨e, hends', hcursor⟩ := ends_of_allows hplan hsize hdelivered hbroken hd
      obtain rfl := hends.unique hends'
      exact Nat.le_trans (Nat.le_of_eq hcursor) (Nat.zero_le _)

/-- Every script of a plan that its shape allows is tame, and so is every script that comes of a
seed. -/
theorem generated_tame (shape : Shape) :
    (∀ plan, shape.Allows plan → Tame shape plan.render) ∧
    ∀ tries count seed drawn, scripts shape tries count seed = some drawn →
      ∀ script ∈ drawn, Tame shape script := by
  have htame (plan : Plan) (hplan : shape.Allows plan) : Tame shape plan.render := by
    have hnests := Plan.nests hplan.2
    refine ⟨Plan.render_ne_nil hplan.1, hnests.balanced, ?_, ?_⟩
    · exact Nat.le_trans (hnests.peak 0) (Nat.le_of_eq (Nat.zero_add _))
    · intro length hl source input output hdelivered hbroken hd
      exact ⟨ends_of_allows hplan hl hdelivered hbroken hd,
        fun m => cursor_le_of_passes hplan hl hdelivered hbroken hd⟩
  refine ⟨htame, fun tries count seed drawn h script hscript => ?_⟩
  obtain ⟨plan, hplan, rfl⟩ := exists_plan_of_scripts h script hscript
  exact htame plan hplan

/-- A counted loop around a single byte. -/
theorem generated_tame_counted_loop :
    let shape : Shape := { depth := 1, width := 1, repeats := 1 }
    let plan : Plan := .counted 1 (.byte '+'.toUInt8 .done) .done
    shape.Allows plan ∧ scripts shape 4 1 1 = some [plan.render] ∧ Tame shape plan.render ∧
      ∃ e, (Setup.ofTape 5 (Nat.succ_pos 4) none).Ends (.ofBytes plan.render) (.ofBytes []) {}
        (.ok e) ∧ e.device.tape.cursor = 0 := by
  intro shape plan
  have hbody : 0 < 1 ∧ (Plan.byte '+'.toUInt8 .done).Fits shape 0 1 :=
    ⟨by decide, by decide, .inl (by decide), trivial⟩
  have hplan : shape.Allows plan := ⟨by decide, by decide, by decide, by decide, hbody, trivial⟩
  have hdrawn : scripts shape 4 1 1 = some [plan.render] := by decide +kernel
  have htame := (generated_tame shape).2 4 1 1 _ hdrawn _ List.mem_cons_self
  obtain ⟨hdelivered, hbroken⟩ := Source.delivered_ofBytes plan.render
  have hruns := htame.runs 5 (by decide) _ (.ofBytes []) {} hdelivered hbroken
    ⟨rfl, (Option.some_ne_none 0).symm, rfl, rfl⟩
  exact ⟨hplan, hdrawn, (generated_tame shape).1 plan hplan, hruns.ends⟩

end Sample

end TapeScript
