import TapeScript.Proofs.Engine.Discipline
import TapeScript.Proofs.Run.Outline

/-! # Passing over a loop

A loop that is opened over a zero cell is left at once, and its body is recorded without being
executed. The commands of the body and the closing command count as skipped; the opening
command is executed. -/

namespace TapeScript

open Outcome Script

/-! ## What counts as skipped -/

namespace Skeleton

variable {s : Skeleton}

theorem isScanning_eq_false : s.isScanning = false ↔ s.scanned = none := by
  rw [isScanning, Option.isSome_eq_false_iff, Option.isNone_iff_eq_none]

@[simp] theorem skipped_push (c : Command) (s : Skeleton) :
    (s.push c).skipped = s.skipped + if s.isScanning then 1 else 0 := by
  obtain ⟨nodes, pending, last, openLoops, tail, scanned, skipped⟩ := s
  cases scanned <;> rfl

@[simp] theorem skipped_sealLoop (s : Skeleton) : s.sealLoop.state.skipped = s.skipped := by
  obtain ⟨nodes, pending, last, openLoops, tail, scanned, skipped⟩ := s
  cases openLoops with
  | nil => rfl
  | cons => simp only [sealLoop]; split <;> rfl

@[simp] theorem skipped_take (s : Skeleton) : s.take.2.skipped = s.skipped := by
  simp only [take]
  split <;> rfl

@[simp] theorem skipped_leaveLoop (s : Skeleton) : s.leaveLoop.skipped = s.skipped := by
  simp only [leaveLoop]
  split
  · rfl
  · split <;> rfl

@[simp] theorem skipped_repeatLoop (s : Skeleton) : s.repeatLoop.skipped = s.skipped := by
  simp only [repeatLoop]
  split <;> rfl

/-- A command is counted when it is recorded in a scan, also if it ends the scan. -/
theorem skipped_record (s : Skeleton) (c : Command) :
    (s.record c).state.skipped = s.skipped + if s.isScanning then 1 else 0 := by
  simp only [record]
  cases c.kind with
  | simple action => exact skipped_push c s
  | loopOpen => exact skipped_push c s.beginLoop
  | loopClose => exact (skipped_sealLoop _).trans (skipped_push c s)

end Skeleton

namespace Engine

variable {c o : Command} {e e' : Engine} {fuel l : Nat} {limit : Option Nat}
  {pre commands body cs : List Command} {p : Progress}

theorem skipped_turn (e : Engine) : e.turn.engine.skeleton.skipped = e.skeleton.skipped := by
  rcases skeleton_turn e with h | h | h <;> simp [h]

theorem skipped_step {outcome : Outcome Engine} (h : e.step fuel c = some outcome) :
    outcome.state.skeleton.skipped =
      e.skeleton.skipped + if e.skeleton.isScanning then 1 else 0 := by
  refine step_induction (P := fun e' => e'.skeleton.skipped =
    e.skeleton.skipped + if e.skeleton.isScanning then 1 else 0) ?_ ?_ h
  · exact fun e' he' => (skipped_turn e').trans he'
  · rw [skeleton_record]
    exact Skeleton.skipped_record e.skeleton c

theorem Scanning.skipped_step {outcome : Outcome Engine} (h : Scanning limit commands l p e)
    (hs : Step c e outcome) : outcome.state.skeleton.skipped = e.skeleton.skipped + 1 := by
  have hscanning : e.skeleton.isScanning = true := by
    rw [Skeleton.isScanning, h.scanned, Option.isSome_some]
  obtain ⟨fuel, hs⟩ := hs
  rw [Engine.skipped_step hs, if_pos hscanning]

/-- While the scanned loop stays open, every command counts as skipped. -/
theorem Scanning.skipped_steps (h : Scanning limit commands l p e) (inner : List Nat)
    {outer : List Nat} (hopen : (Skeleton.recorded commands).openLoops = inner ++ l :: outer)
    {d : Nat} (hd : Bracket.depthFrom? inner.length (Bracket.ofCommands cs) = some d)
    (hs : Steps cs e (.ok e')) : e'.skeleton.skipped = e.skeleton.skipped + cs.length := by
  induction cs using List.reverseRecOn generalizing d e' with
  | nil =>
      obtain rfl := Outcome.ok.inj (steps_nil.mp hs)
      rfl
  | append_singleton cs c ih =>
      rw [Bracket.ofCommands_append, Bracket.depthFrom?_append] at hd
      obtain ⟨d', hd', -⟩ := Option.bind_eq_some_iff.mp hd
      obtain ⟨e₁, hsteps, hscan⟩ := h.steps inner hopen hd'
      rw [steps_append, then_congr hsteps fun _ _ => steps_singleton, then_ok] at hs
      have hlast := hscan.skipped_step hs
      rw [state_ok, ih hd' ((hsteps _).mpr rfl)] at hlast
      rw [hlast, List.length_append, List.length_singleton, Nat.add_assoc]

/-! ## The whole loop -/

/-- A step that ends well with no scan going on ends with nothing due. -/
theorem StepEnds.isDue_eq_false (h : StepEnds c e (.ok e')) (ho : e.Ordered)
    (hs : e'.skeleton.scanned = none) : e'.skeleton.isDue = false := by
  cases h with
  | scanning _ hne => exact absurd hs hne
  | idle hat ht =>
      obtain ⟨rfl, hpending⟩ := (hat.confined ho).idle ht
      rw [Skeleton.isDue, hpending, Option.isSome_none]

/-- The loop around `body` is recorded, and of all its commands the opening one was executed. -/
structure PassedOver (e : Engine) (body : List Command) (e' : Engine) : Prop where
  device : e'.device = e.device
  executed : e'.executed = e.executed + 1
  skipped : e'.skeleton.skipped = e.skeleton.skipped + (body.length + 1)
  size : e'.skeleton.size = e.skeleton.size + (body.length + Skeleton.opens body + 3)
  isScanning : e'.skeleton.isScanning = false
  isDue : e'.skeleton.isDue = false
  depth : e'.skeleton.depth = e.skeleton.depth

theorem exhausted?_eq_none_iff {executed : Nat} :
    exhausted? limit executed = none ↔ ∀ k, limit = some k → executed < k := by
  simp only [exhausted?, Option.filter_eq_none_iff, decide_eq_true_eq, Nat.not_le]

/-- An opening command over a zero cell is executed, and a scan begins. -/
theorem Resting.step_open_zero (h : Resting limit pre p e) (ho : o.kind = .loopOpen)
    (hz : p.device.tape.current = 0) (hx : exhausted? limit p.executed = none) :
    ∃ e', Step o e (.ok e') ∧
      Scanning limit (pre ++ [o]) (Skeleton.nodeCount pre)
        ⟨p.device, p.executed + 1⟩ e' := by
  have hact : p.act limit o = .ok ⟨p.device, p.executed + 1⟩ := by
    rw [Progress.act, charge_eq, hx]
    simp only [ho]
  obtain ⟨outcome, hstep, hrel⟩ := (h.step_open ho).right _ rfl
  rw [hact] at hrel
  cases hrel with
  | ok hopened => exact ⟨_, hstep, hopened.left hz⟩

section Loop

variable (ho : o.kind = .loopOpen) (hc : c.kind = .loopClose)
include ho hc

theorem nodeCount_loop (pre body : List Command) :
    Skeleton.nodeCount (pre ++ o :: body ++ [c]) =
      Skeleton.nodeCount pre + (body.length + Skeleton.opens body + 3) := by
  have hlead : Skeleton.lead o = 1 := by simp only [Skeleton.lead, ho]
  have hlead' : Skeleton.lead c = 0 := by simp only [Skeleton.lead, hc]
  rw [Skeleton.nodeCount_append, Skeleton.nodeCount_append, Skeleton.nodeCount_cons,
    Skeleton.nodeCount_cons, Skeleton.nodeCount_nil, Skeleton.nodeCount_eq body, hlead, hlead']
  omega

variable (hbody : Bracket.Balanced (Bracket.ofCommands body))
include hbody

/-- Behind a balanced body and its closing command the open loops are those from before. -/
theorem openLoops_loop (pre : List Command) :
    (Skeleton.recorded (pre ++ o :: body ++ [c])).openLoops =
      (Skeleton.recorded pre).openLoops := by
  rw [Skeleton.recorded_concat, Skeleton.openLoops_record]
  simp only [hc]
  rw [Skeleton.openLoops_body ho hbody, List.tail_cons]

/-- A loop that is opened over a zero cell is passed over, whatever its body and whatever was
stepped through before. -/
theorem steps_loop_over_zero {device : Device} (h : Stepped { device, limit } commands e)
    (hs : e.skeleton.isScanning = false) (hz : e.device.tape.current = 0)
    (hx : ∀ k, e.limit = some k → e.executed < k) :
    ∃ e', Steps (o :: body ++ [c]) e (.ok e') ∧ PassedOver e body e' := by
  have hexhausted := exhausted?_eq_none_iff.mpr hx
  have hrest : Resting e.limit commands e.progress e :=
    ⟨h.sameShape, Skeleton.isScanning_eq_false.mp hs, rfl, rfl⟩
  have hopen := Skeleton.openLoops_opening ho commands
  obtain ⟨e₁, hfirst, hscan₁⟩ := hrest.step_open_zero ho hz hexhausted
  obtain ⟨e₂, hsteps, hscan₂⟩ := hscan₁.steps [] hopen hbody
  have hbefore := (hsteps _).mpr rfl
  have hskipped := hscan₁.skipped_steps [] hopen hbody hbefore
  rw [← List.append_cons] at hscan₂
  obtain ⟨e₃, hlast, hrest₃⟩ := hscan₂.step_close ho hc hbody
  have hclose := (hlast _).mpr rfl
  have hall : Steps (o :: body ++ [c]) e (.ok e₃) := by
    rw [List.cons_append, steps_cons]
    refine .ok hfirst (steps_append.mpr (.ok hbefore (steps_singleton.mpr hclose)))
  refine ⟨e₃, hall, ?_⟩
  have hprogress := hrest₃.progress_eq
  have hordered : e₂.Ordered := by
    obtain ⟨fuel, hfuel⟩ := steps_cons.mpr (.ok hfirst hbefore)
    exact (h.steps hfuel).ordered
  constructor
  · exact congrArg Progress.device hprogress
  · exact congrArg Progress.executed hprogress
  · obtain ⟨fuel, hfuel⟩ := hfirst
    have hnone := Engine.skipped_step hfuel
    rw [hs] at hnone
    rw [← state_ok e₃, hscan₂.skipped_step hclose, hskipped, ← state_ok e₁, hnone]
    rfl
  · rw [hrest₃.shape.size, hrest.shape.size, Skeleton.size_recorded, Skeleton.size_recorded,
      nodeCount_loop ho hc]
  · exact Skeleton.isScanning_eq_false.mpr hrest₃.scanned
  · obtain ⟨fuel, hfuel⟩ := hclose
    exact (stepEnds hfuel).isDue_eq_false hordered hrest₃.scanned
  · rw [Skeleton.depth, Skeleton.depth, hrest₃.shape.openLoops, hrest.shape.openLoops,
      openLoops_loop ho hc hbody]

end Loop

/-- A loop with another one inside it, behind a close without a loop. -/
theorem steps_loop_over_zero_nested :
    let device : Device := ⟨.blank 1 Nat.one_pos, .ofBytes [], {}⟩
    let opening : Command := ⟨'['.toUInt8, .loopOpen⟩
    let closing : Command := ⟨']'.toUInt8, .loopClose⟩
    let body := Dialect.builtin.commandsOf (['+', '[', ']'].map Char.toUInt8)
    ∃ e e', Stepped { device, limit := some 1 } [closing] e ∧ e.skeleton.isScanning = false ∧
      e.device.tape.current = 0 ∧ (∀ k, e.limit = some k → e.executed < k) ∧
      Bracket.Balanced (Bracket.ofCommands body) ∧
      Steps (opening :: body ++ [closing]) e (.ok e') ∧ PassedOver e body e' := by
  intro device opening closing body
  have hstepped : Stepped { device, limit := some 1 } [closing] _ :=
    @Stepped.step _ _ _ 2 closing _ .fresh rfl
  have hlimit (k : Nat) (hk : some 1 = some k) : 0 < k := Option.some.inj hk ▸ Nat.one_pos
  have hbody : Bracket.Balanced (Bracket.ofCommands body) := by decide
  obtain ⟨e', hsteps, hover⟩ :=
    steps_loop_over_zero (o := opening) (c := closing) rfl rfl hbody hstepped rfl rfl hlimit
  exact ⟨_, e', hstepped, rfl, rfl, hlimit, hbody, hsteps, hover⟩

end Engine

end TapeScript
