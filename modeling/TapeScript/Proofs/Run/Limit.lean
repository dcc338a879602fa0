import TapeScript.Proofs.Engine.Conclusion
import TapeScript.Proofs.Engine.Cutoff

/-! # Runs under a limit

A limit that a run stays under changes nothing. Any other limit cuts the run off right behind
the last action that it allows. -/

namespace TapeScript.Setup

open Outcome Engine

variable {setup : Setup} {script input : Source} {output : Sink} {o o' : Outcome Engine}
  {e m : Engine} {k : Nat}

/-! ## Runs without fuel -/

/-- The run ends with this outcome. -/
def Ends (setup : Setup) (script input : Source) (output : Sink) (o : Outcome Engine) : Prop :=
  Halts (setup.run · script input output) o

/-- The commands of the script up to its end or its break. -/
def commands (setup : Setup) (script : Source) : List Command :=
  setup.dialect.commandsOf script.delivered

theorem mem_dialect_of_mem_commands {c : Command} (h : c ∈ setup.commands script) :
    c ∈ setup.dialect.commands := by
  obtain ⟨token, -, hfind⟩ := List.mem_filterMap.mp h
  exact List.mem_of_find?_eq_some hfind

/-- The engine appears in the run: at its start, in a step, or at its end. -/
inductive Passes (setup : Setup) (script input : Source) (output : Sink) : Engine → Prop where
  | start : Passes setup script input output (setup.start input output)
  | stepping {m : Engine}
      (h : Engine.Passes (setup.commands script) (setup.start input output) m) :
      Passes setup script input output m
  | ended {o : Outcome Engine} (h : setup.Ends script input output o) :
      Passes setup script input output o.state

theorem steady_run (setup : Setup) (script input : Source) (output : Sink) :
    Steady (setup.run · script input output) := by
  simp only [run_eq]
  exact steady_chain (steady_steps _ _) fun _ => steady_const _

theorem Ends.unique (h : setup.Ends script input output o)
    (h' : setup.Ends script input output o') : o = o' :=
  Halts.unique h (setup.steady_run script input output) h'

theorem Ends.iff_eq (h : setup.Ends script input output o) :
    setup.Ends script input output o' ↔ o' = o :=
  Halts.iff_eq h (setup.steady_run script input output)

/-- A run steps through the commands of its script and then finishes. -/
theorem ends_iff :
    setup.Ends script input output o ↔
      Then (Steps (setup.commands script) (setup.start input output))
        (fun e o => o = finish script.broken? e) o := by
  have hfinish (e : Engine) : Steady fun _ => some (finish script.broken? e) := steady_const _
  simp only [Ends, run_eq]
  exact (halts_chain (steady_steps _ _) hfinish).trans
    (then_congr (fun _ => Iff.rfl) fun _ _ => halts_some)

/-! ## The end of a run -/

theorem finish_limited (broken? : Option String) (e : Engine) (k : Nat) :
    finish broken? (e.limited k) = (finish broken? e).map (limited k) := by
  obtain ⟨device, skeleton, limit, executed⟩ := e
  cases broken? with
  | some text => rfl
  | none =>
      simp only [finish, breakOff, conclude, limited]
      cases skeleton.check with
      | error cause => rfl
      | ok _ =>
          simp only [Outcome.map_map]
          rfl

/-- At the end nothing happens but that the sink is flushed. -/
theorem state_finish (broken? : Option String) (e : Engine) :
    ∃ sink, (finish broken? e).state = { e with device := { e.device with sink } } := by
  obtain ⟨device, skeleton, limit, executed⟩ := e
  cases broken? with
  | some text => exact ⟨device.sink, rfl⟩
  | none =>
      simp only [finish, breakOff, conclude]
      cases skeleton.check with
      | error cause => exact ⟨device.sink, rfl⟩
      | ok _ =>
          refine ⟨device.sink.flush.state, ?_⟩
          simp only [Outcome.state_map, Device.flush]

theorem executed_finish (broken? : Option String) (e : Engine) :
    (finish broken? e).state.executed = e.executed := by
  obtain ⟨sink, hs⟩ := state_finish broken? e
  rw [hs]

/-- The stepping behind an ended run, which has done all of it but the flush. -/
theorem Ends.exists_stepped (h : setup.Ends script input output o) :
    ∃ o' sink, Steps (setup.commands script) (setup.start input output) o' ∧
      o.state = { o'.state with device := { o'.state.device with sink } } := by
  rw [ends_iff] at h
  cases h with
  | fault h => exact ⟨_, _, h, rfl⟩
  | @ok e _ h hfinish =>
      obtain ⟨sink, hsink⟩ := state_finish script.broken? e
      exact ⟨_, sink, h, by rw [hfinish, hsink, state_ok]⟩

theorem Ends.exists_steps (h : setup.Ends script input output o) :
    ∃ o', Steps (setup.commands script) (setup.start input output) o' ∧
      o.state.executed = o'.state.executed := by
  obtain ⟨o', sink, hsteps, hstate⟩ := h.exists_stepped
  exact ⟨o', hsteps, by rw [hstate]⟩

theorem exists_ends_of_steps (h : Steps (setup.commands script) (setup.start input output) o) :
    ∃ o', setup.Ends script input output o' ∧ o'.state.executed = o.state.executed := by
  cases o with
  | fault cause e => exact ⟨_, ends_iff.mpr (.fault h), rfl⟩
  | ok e => exact ⟨_, ends_iff.mpr (.ok h rfl), executed_finish script.broken? e⟩

/-- Behind a balanced script that does not break off a run ends well, on the tape on which the
stepping ended. -/
theorem ends_ok_of_steps
    (hbalanced : Bracket.Balanced (Bracket.ofCommands (setup.commands script)))
    (hbroken : script.broken? = none) (hflush : e.device.sink.flushError = none)
    (h : Steps (setup.commands script) (setup.start input output) (.ok e)) :
    ∃ e', setup.Ends script input output (.ok e') ∧ e'.device.tape = e.device.tape := by
  have hopen : e.skeleton.openLoops = [] := openLoops_of_balanced hbalanced rfl h
  obtain ⟨e', hconclude, -⟩ := conclude_of_closed hopen hflush
  have hfinish : finish script.broken? e = .ok e' := by
    rw [hbroken]
    exact hconclude
  obtain ⟨sink, hstate⟩ := state_finish script.broken? e
  rw [hfinish, state_ok] at hstate
  exact ⟨e', ends_iff.mpr (.ok h hfinish.symm), by rw [hstate]⟩

/-! ## Without a limit and with one -/

def unlimited (setup : Setup) : Setup := { setup with limit := none }

def under (setup : Setup) (k : Nat) : Setup := { setup with limit := some k }

/-- The run under the limit fails because of it, after exactly as many actions as it allows and
on the device that the unlimited run has right after these actions. -/
structure CutShort (setup : Setup) (k : Nat) (script input : Source) (output : Sink)
    (e : Engine) : Prop where
  ends : ∀ o, (setup.under k).Ends script input output o ↔ o = .fault (.limitReached k) e
  executed : e.executed = k
  reached : ∃ m, setup.unlimited.Passes script input output m ∧ m.executed = k
  device : ∀ m, setup.unlimited.Passes script input output m → m.executed = k →
    m.device = e.device

theorem withinLimit_start (setup : Setup) (k : Nat) (input : Source) (output : Sink) :
    WithinLimit k ((setup.under k).start input output) :=
  ⟨rfl, Nat.zero_le k⟩

theorem executed_le_of_ends (h : (setup.under k).Ends script input output o) :
    o.state.executed ≤ k := by
  obtain ⟨o', ⟨fuel, hsteps⟩, heq⟩ := h.exists_steps
  rw [heq]
  exact ((kept_withinLimit k).steps (setup.withinLimit_start k input output) hsteps).2

theorem executed_le_of_passes (h : (setup.under k).Passes script input output m) :
    m.executed ≤ k := by
  cases h with
  | start => exact Nat.zero_le k
  | stepping h => exact ((kept_withinLimit k).passes (setup.withinLimit_start k input output) h).2
  | ended h => exact executed_le_of_ends h

theorem ends_under_of_le (h : setup.unlimited.Ends script input output o)
    (hk : o.state.executed ≤ k) :
    (setup.under k).Ends script input output (o.map (limited k)) := by
  obtain ⟨o', ⟨fuel, hsteps⟩, heq⟩ := h.exists_steps
  have hlimited := steps_limited (k := k) rfl hsteps (heq ▸ hk)
  rw [ends_iff] at h ⊢
  cases h with
  | fault h =>
      obtain rfl := h.unique ⟨fuel, hsteps⟩
      exact .fault ⟨fuel, hlimited⟩
  | ok h hfinish =>
      obtain rfl := h.unique ⟨fuel, hsteps⟩
      exact .ok ⟨fuel, hlimited⟩ (by rw [hfinish, finish_limited])

theorem exists_ends_under (setup : Setup) (k : Nat) (script input : Source) (output : Sink) :
    ∃ o, (setup.under k).Ends script input output o := by
  obtain ⟨o, fuel, ho⟩ := exists_steps_limited (e := setup.unlimited.start input output) rfl
    (setup.commands script) k
  have hsteps : Steps ((setup.under k).commands script) ((setup.under k).start input output) o :=
    ⟨fuel, ho⟩
  obtain ⟨o', h, -⟩ := exists_ends_of_steps hsteps
  exact ⟨o', h⟩

/-- The device after so many actions, in a run without a limit and under this limit. -/
theorem device_of_stepping
    (hm : setup.unlimited.Passes script input output m) (hk : m.executed = k)
    (hends : ∀ o, setup.unlimited.Ends script input output o → k < o.state.executed)
    (ho : Steps (setup.commands script) ((setup.under k).start input output) o) :
    m.device = o.state.device := by
  cases hm with
  | start =>
      have hexhausted : Exhausted k ((setup.under k).start input output) :=
        ⟨rfl, Nat.le_of_eq hk.symm⟩
      obtain ⟨s, hs⟩ := hexhausted.steps ho
      rw [hs]
      rfl
  | stepping hm => exact (device_of_passes rfl hm hk ho).1.symm
  | ended h => exact absurd hk (Nat.ne_of_gt (hends _ h))

theorem exists_cutShort
    (hends : ∀ o, setup.unlimited.Ends script input output o → k < o.state.executed) :
    ∃ e, setup.CutShort k script input output e := by
  obtain ⟨o, fuel, ho⟩ := exists_steps_limited (e := setup.unlimited.start input output) rfl
    (setup.commands script) k
  have hsteps : Steps (setup.commands script) ((setup.under k).start input output) o := ⟨fuel, ho⟩
  have hle : o.state.executed ≤ k :=
    ((kept_withinLimit k).steps (setup.withinLimit_start k input output) ho).2
  rcases steps_limited_or rfl ho with ⟨o', ho', rfl⟩ | ⟨m, rfl, hm, hge⟩
  · have ho'' : Steps (setup.unlimited.commands script) (setup.unlimited.start input output) o' :=
      ⟨fuel, ho'⟩
    obtain ⟨o'', h, heq⟩ := exists_ends_of_steps ho''
    have hlt := hends o'' h
    rw [Outcome.state_map] at hle
    exact absurd (heq ▸ hlt) (Nat.not_lt.mpr hle)
  · have hm_eq : m.executed = k := Nat.le_antisymm hle hge
    have hfault : (setup.under k).Ends script input output
        (.fault (.limitReached k) (m.limited k)) := ends_iff.mpr (.fault hsteps)
    exact ⟨m.limited k, fun _ => hfault.iff_eq, hm_eq, ⟨m, .stepping hm, hm_eq⟩,
      fun m' hm' hk' => device_of_stepping hm' hk' hends hsteps⟩

/-- If the unlimited run ends after some actions, every limit that allows them gives the same
run, and every lower one cuts it short. If it never ends, every limit cuts it short. Every run
under a limit ends, and never exceeds it. -/
theorem run_under_limit (setup : Setup) (k : Nat) (script input : Source) (output : Sink) :
    (∀ o, setup.unlimited.Ends script input output o →
      (o.state.executed ≤ k → ∀ o', (setup.under k).Ends script input output o' ↔
        o' = o.map (limited k)) ∧
      (k < o.state.executed → ∃ e, setup.CutShort k script input output e)) ∧
    ((∀ o, ¬setup.unlimited.Ends script input output o) →
      ∃ e, setup.CutShort k script input output e) ∧
    (∃ o, (setup.under k).Ends script input output o) ∧
    ∀ m, (setup.under k).Passes script input output m → m.executed ≤ k := by
  refine ⟨fun o h => ⟨?_, ?_⟩, ?_, setup.exists_ends_under k script input output,
    fun m => executed_le_of_passes⟩
  · intro hk o'
    have hends := ends_under_of_le h hk
    constructor
    · exact fun h' => h'.unique hends
    · rintro rfl
      exact hends
  · intro hk
    exact exists_cutShort fun o' h' => h.unique h' ▸ hk
  · intro h
    exact exists_cutShort fun o' h' => absurd h' (h o')

/-- Two actions, of which a limit of one allows the first. -/
theorem run_under_limit_two_actions :
    let setup : Setup := { length := 1 }
    let script := Source.ofBytes (['+', '.'].map Char.toUInt8)
    ∃ o, setup.unlimited.Ends script (.ofBytes []) {} o ∧ o.state.executed = 2 ∧
      (setup.under 2).Ends script (.ofBytes []) {} (o.map (limited 2)) ∧
      ∃ e, setup.CutShort 1 script (.ofBytes []) {} e := by
  intro setup script
  have hsteps : Steps (setup.unlimited.commands script)
      (setup.unlimited.start (.ofBytes []) {}) (.ok _) := ⟨2, rfl⟩
  obtain ⟨o, h, hcount⟩ := exists_ends_of_steps hsteps
  have hwhole := setup.run_under_limit 2 script (.ofBytes []) {}
  have hcut := setup.run_under_limit 1 script (.ofBytes []) {}
  refine ⟨o, h, hcount, ?_, ?_⟩
  · exact ((hwhole.1 o h).1 (Nat.le_of_eq hcount) _).mpr rfl
  · exact (hcut.1 o h).2 (Nat.lt_of_lt_of_eq Nat.one_lt_two hcount.symm)

end TapeScript.Setup
