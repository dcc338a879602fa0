import TapeScript.Proofs.Engine.Visits

/-! # The tally of a run

Every command of a run that ends well was executed in its own visit or counts as skipped, and
only closing commands that went back into their loops add to the actions. -/

namespace TapeScript

open Outcome

namespace Engine

variable {v : Visit} {visits : List Visit}

/-! ## Visits and actions -/

/-- There is an action for every visit that executes anything, and one more for every visit that
goes back. -/
theorem length_add_goesBack_le (visits : List Visit) :
    visits.length + visits.countP (·.goesBack) ≤
      (visits.map (·.nodes.length)).sum + visits.countP (·.isIdle) := by
  induction visits with
  | nil => exact Nat.le_refl _
  | cons v visits ih =>
      rw [List.length_cons, List.countP_cons, List.countP_cons, List.map_cons, List.sum_cons,
        Visit.goesBack, Visit.isIdle]
      rcases v.nodes with _ | ⟨id, _ | ⟨id', ids⟩⟩ <;> simp <;> omega

theorem sum_nodes_of_goesBack_eq_zero (h : visits.countP (·.goesBack) = 0) :
    (visits.map (·.nodes.length)).sum + visits.countP (·.isIdle) = visits.length := by
  induction visits with
  | nil => rfl
  | cons v visits ih =>
      rw [List.countP_cons, Nat.add_eq_zero_iff] at h
      have hrest := ih h.1
      have hback := h.2
      rw [Visit.goesBack] at hback
      rw [List.length_cons, List.countP_cons, List.map_cons, List.sum_cons, Visit.isIdle]
      rcases hnodes : v.nodes with _ | ⟨id, _ | ⟨id', ids⟩⟩
      · simp
        omega
      · simp
        omega
      · simp [hnodes] at hback

theorem Visit.enters_eq_false_iff :
    v.enters = false ↔ (v.command.kind = .loopOpen → v.own ∈ v.nodes →
      v.found.device.tape.current = 0) := by
  rw [Visit.enters, Command.isLoopOpen]
  cases v.command.kind <;> simp

/-! ## Tallies -/

/-- The tally says of the visits how many there were, how many executed nothing and how many
actions there were in all. -/
structure AddsUp (commands : List Command) (visits : List Visit) (t : Tally) : Prop where
  visited : visits.map (·.command) = commands
  own_command : ∀ v ∈ visits, v.left.skeleton.command? v.own = some v.command
  loops : t.loops = commands.countP (·.isLoopOpen)
  recorded : t.recorded = t.loops + commands.length
  executed : t.executed = (visits.map (·.nodes.length)).sum
  skipped : t.skipped = visits.countP (·.nodes.isEmpty)
  le_executed : t.recorded - t.loops - t.skipped ≤ t.executed
  eq_executed_iff : t.executed = t.recorded - t.loops - t.skipped ↔
    ∀ v ∈ visits, v.command.kind = .loopOpen → v.own ∈ v.nodes →
      v.found.device.tape.current = 0
  executed_or_skipped : ∀ v ∈ visits,
    (v.own ∈ v.nodes ∧ v.left.skeleton.skipped = v.found.skeleton.skipped) ∨
      (v.own ∉ v.nodes ∧ v.left.skeleton.skipped = v.found.skeleton.skipped + 1)

theorem Visit.Counts.executed_or_skipped (h : v.Counts) :
    (v.own ∈ v.nodes ∧ v.left.skeleton.skipped = v.found.skeleton.skipped) ∨
      (v.own ∉ v.nodes ∧ v.left.skeleton.skipped = v.found.skeleton.skipped + 1) := by
  have hskipped := h.skipped
  cases hidle : v.isIdle with
  | true =>
      rw [hidle] at hskipped
      rw [Visit.isIdle, List.isEmpty_iff] at hidle
      exact .inr ⟨by simp [hidle], hskipped⟩
  | false =>
      rw [hidle] at hskipped
      exact .inl ⟨h.own_mem hidle, hskipped⟩

/-- Where a script begins nothing is counted, and where it ends well every loop that was entered
is left. -/
theorem Visited.addsUp {commands : List Command} {device : Device} {limit : Option Nat} {e : Engine}
    (h : Visited commands { device, limit } visits e) (hreads : e.skeleton.ReadsAs commands)
    (hopen : e.skeleton.openLoops = []) : AddsUp commands visits e.tally := by
  have hexecuted := h.executed
  have hskipped := h.skipped
  have hentered := h.entered
  have hlength : visits.length = commands.length := by
    rw [← h.commands, List.length_map]
  have hsize : e.skeleton.size = e.skeleton.loops + commands.length := by
    rw [hreads.size, hreads.loops, Nat.add_comm]
  rw [Skeleton.entered_of_openLoops_eq_nil hopen,
    Skeleton.entered_of_openLoops_eq_nil (by rfl)] at hentered
  simp only [Nat.zero_add] at hexecuted hskipped hentered
  have hle := length_add_goesBack_le visits
  have hidle : visits.countP (·.isIdle) ≤ visits.length := List.countP_le_length
  refine ⟨h.commands, fun v hv => (h.counts v hv).own_command, hreads.loops, hsize, hexecuted,
    hskipped, ?_, ?_, fun v hv => (h.counts v hv).executed_or_skipped⟩
  · dsimp only [tally]
    omega
  · have hiff : visits.countP (·.goesBack) = 0 ↔ ∀ v ∈ visits, v.command.kind = .loopOpen →
        v.own ∈ v.nodes → v.found.device.tape.current = 0 := by
      rw [hentered, List.countP_eq_zero]
      simp only [Bool.not_eq_true, Visit.enters_eq_false_iff]
    rw [← hiff]
    dsimp only [tally]
    constructor
    · omega
    · intro hback
      have := sum_nodes_of_goesBack_eq_zero hback
      omega

end Engine

namespace Setup

variable {setup : Setup} {fuel : Nat} {script input : Source} {output : Sink} {e : Engine}

/-- A run that ends well tells in its tally how many commands and loops its script has, how many
commands were skipped, and how many actions there were: no fewer than commands that were not
skipped, and just as many if no loop was entered. -/
theorem tally_adds_up (h : setup.run fuel script input output = some (.ok e)) :
    Engine.AddsUp (setup.commands script)
      (Engine.visits fuel (setup.commands script) (setup.start input output)) e.tally := by
  have hreads := readsAs_of_run h
  rw [run_eq, chain_eq_some] at h
  cases h with
  | @ok e' _ hsteps hfinish =>
      have hvisited := Engine.Stepped.visited .fresh hsteps
      have hfinish := Option.some.inj hfinish
      obtain ⟨sink, hstate⟩ := state_finish script.broken? e'
      rw [hfinish, state_ok] at hstate
      subst hstate
      refine hvisited.addsUp hreads ?_
      rcases finish_cases script.broken? e' with ⟨-, hopen, -⟩ | ⟨-, cause, hfault⟩
      · exact hopen
      · cases hfinish.symm.trans hfault

/-- A loop that is passed over, and one that is entered. -/
theorem tally_adds_up_two_loops :
    let setup : Setup := { length := 1 }
    let script := Source.ofBytes (['[', '+', ']', '+', '[', '-', ']'].map Char.toUInt8)
    ∃ e, setup.run 3 script (.ofBytes []) {} = some (.ok e) ∧ e.tally = ⟨6, 9, 2, 2⟩ ∧
      Engine.AddsUp (setup.commands script)
        (Engine.visits 3 (setup.commands script) (setup.start (.ofBytes []) {})) e.tally := by
  intro setup script
  have hrun : (setup.run 3 script (.ofBytes []) {}).map (fun o => (o.fault?, o.state.tally)) =
      some (none, ⟨6, 9, 2, 2⟩) := by decide +kernel
  obtain ⟨o, ho, heq⟩ := Option.map_eq_some_iff.mp hrun
  obtain ⟨hfault, htally⟩ := Prod.mk.inj heq
  cases o with
  | fault cause e => cases hfault
  | ok e => exact ⟨e, ho, htally, tally_adds_up ho⟩

end Setup

end TapeScript
