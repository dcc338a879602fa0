import TapeScript.Proofs.Engine.Locality

/-! # Visits

Stepping visits every command once. The command is executed first thing in its visit, or it
counts as skipped. A closing command that is executed goes back into its loop, and there are
as many of them as loops that were entered. -/

namespace TapeScript

open Outcome

/-! ## Loops that were entered -/

namespace Skeleton

variable {s : Skeleton} {l : Nat}

/-- How many of the open loops were entered: while a loop is scanned, those around it. -/
def entered (s : Skeleton) : Nat :=
  match s.scanned with
  | none => s.openLoops.length
  | some l => s.openLoops.countP (· < l)

theorem entered_of_scanned_eq_none (h : s.scanned = none) : s.entered = s.openLoops.length := by
  simp only [entered, h]

theorem entered_of_scanned (h : s.scanned = some l) :
    s.entered = s.openLoops.countP (· < l) := by
  simp only [entered, h]

theorem entered_of_openLoops_eq_nil (h : s.openLoops = []) : s.entered = 0 := by
  rw [entered, h]
  cases s.scanned <;> rfl

theorem countP_lt_of_sorted {outer : List Nat} (h : (l :: outer).Pairwise (· > ·)) :
    (l :: outer).countP (· < l) = outer.length := by
  rw [List.countP_cons_of_neg (by simp), List.countP_eq_length]
  intro l' hl'
  exact decide_eq_true ((List.pairwise_cons.mp h).1 l' hl')

/-- A scan ends with its own loop, so what is recorded in a scan enters and leaves no loop. -/
theorem entered_record (hl : s.Linked) (h : s.scanned = some l) (hopen : l ∈ s.openLoops)
    (c : Command) : (s.record c).state.entered = s.entered := by
  have hloops := openLoops_record s c
  rw [entered_of_scanned h]
  by_cases hc : c.kind = .loopClose → s.scanned ≠ s.innermost
  · rw [entered_of_scanned ((scanned_record hc).trans h), hloops]
    cases hk : c.kind with
    | simple action => rfl
    | loopOpen =>
        have hlt := hl.open_lt hopen
        exact List.countP_cons_of_neg (by simpa using Nat.le_of_lt hlt)
    | loopClose =>
        have hsorted := hl.open_sorted
        have hne := hc hk
        rw [h, innermost] at hne
        cases ho : s.openLoops with
        | nil => rfl
        | cons top outer =>
            rw [ho, List.head?_cons] at hne
            rw [ho] at hopen hsorted
            have hmem := (List.mem_cons.mp hopen).resolve_left fun heq => hne (congrArg some heq)
            have hlt := (List.pairwise_cons.mp hsorted).1 l hmem
            exact (List.countP_cons_of_neg (by simpa using Nat.le_of_lt hlt)).symm
  · obtain ⟨hk, hi⟩ := Classical.not_imp.mp hc
    have hends : (s.record c).state.scanned = none := by
      rw [record, hk]
      exact (sealLoop_scanned (s := s.push c) (not_not.mp hi) (h ▸ Option.some_ne_none l)).1
    have htop := (not_not.mp hi).symm.trans h
    have hsorted := hl.open_sorted
    rw [entered_of_scanned_eq_none hends, hloops, hk]
    rw [innermost, List.head?_eq_some_iff] at htop
    obtain ⟨outer, ho⟩ := htop
    rw [ho] at hsorted ⊢
    exact (countP_lt_of_sorted hsorted).symm

/-- A loop that stays open behind a command began before the ground of that command. -/
theorem Linked.lt_ground_of_open {c : Command} (hl : s.Linked) (hk : c.kind ≠ .loopOpen)
    (h : l ∈ (s.record c).state.openLoops) : l + 1 < s.ground c := by
  rw [openLoops_record] at h
  cases hkind : c.kind with
  | loopOpen => exact absurd hkind hk
  | simple action =>
      rw [hkind] at h
      obtain ⟨o, hcommand, -⟩ := (hl.opensAt (hl.open_isLoop h)).command
      have hlt := lt_size_of_command? hcommand
      rw [ground_of_ne_loopClose (by simp [hkind])]
      exact Nat.lt_add_right (lead c) hlt
  | loopClose =>
      rw [hkind] at h
      have hsorted := hl.open_sorted
      cases htop : s.openLoops with
      | nil =>
          rw [htop] at h
          cases h
      | cons top outer =>
          rw [htop] at h hsorted
          have hlt := (List.pairwise_cons.mp hsorted).1 l h
          rw [ground_loopClose hkind (by rw [innermost, htop]; rfl)]
          exact Nat.succ_lt_succ hlt

end Skeleton

namespace Engine

variable {c : Command} {cs pre : List Command} {e e' e₁ : Engine} {s : Skeleton}
  {f fuel l : Nat} {device : Device} {limit : Option Nat}

/-! ## Steps that end well -/

theorem settle_eq_ok (h : e.settle fuel = some (.ok e')) :
    ∃ n, fuel = n + 1 ∧
      (e.turn = .idle e' ∨ ∃ e₁, e.turn = .ran e₁ ∧ e₁.settle n = some (.ok e')) := by
  cases fuel with
  | zero => cases h
  | succ n =>
      rw [settle] at h
      refine ⟨n, rfl, ?_⟩
      cases ht : e.turn with
      | idle e₁ =>
          rw [ht] at h
          obtain rfl := Outcome.ok.inj (Option.some.inj h)
          exact .inl rfl
      | stopped cause e₁ =>
          rw [ht] at h
          cases h
      | ran e₁ =>
          rw [ht] at h
          exact .inr ⟨e₁, rfl, h⟩

/-- A turn that ran has executed a node. -/
theorem exists_turnNode? (h : e.turn = .ran e') :
    ∃ id, e.turnNode? = some id ∧ e'.skeleton.last = some id := by
  have hcount := (ran_cases h).2
  have hlast : e.turnNode? = e'.skeleton.last := by
    rw [turnNode?, h]
    exact if_neg (by simp [Turn.engine, hcount])
  cases hnode : e.turnNode? with
  | none =>
      have hnone := executed_turn_eq e
      rw [h, hnode] at hnone
      change e'.executed = e.executed + 0 at hnone
      omega
  | some id => exact ⟨id, rfl, hlast.symm.trans hnode⟩

/-- What is due in a settling that ends well is executed. -/
theorem Confined.settleNodes_ne_nil (h : Confined f e) (hs : e.settle fuel = some (.ok e'))
    (hp : e.skeleton.pending ≠ none) : settleNodes fuel e ≠ [] := by
  obtain ⟨n, rfl, hidle | ⟨e₁, hran, -⟩⟩ := settle_eq_ok hs
  · exact absurd (h.idle hidle).2 hp
  · obtain ⟨id, hid, -⟩ := exists_turnNode? hran
    rw [settleNodes, hid]
    exact List.cons_ne_nil _ _

theorem exists_record_of_step (h : e.step fuel c = some (.ok e')) : ∃ e₁, e.record c = .ok e₁ := by
  rw [step] at h
  cases hr : e.record c with
  | ok e₁ => exact ⟨e₁, rfl⟩
  | fault cause e₁ =>
      rw [hr] at h
      cases h

/-- What a step does that ends well outside of a scan: it executes its own command, and then
others exactly if that closes a loop. -/
theorem Ordered.stepNodes_of_ok (ho : e.Ordered) (hs : e.skeleton.isScanning = false)
    (h : e.step fuel c = some (.ok e')) :
    ∃ ids, stepNodes fuel c e = (e.skeleton.size + Skeleton.lead c) :: ids ∧
      (ids = [] ↔ c.kind ≠ .loopClose) := by
  obtain ⟨_, hrecord⟩ := exists_record_of_step h
  obtain ⟨e₁, s, hbegins⟩ := ho.begins hs (openLoops_of_record_eq_ok hrecord)
  have hsettle : e₁.settle fuel = some (.ok e') := by
    rw [step, hbegins.record] at h
    dsimp only at h
    rwa [hbegins.isScanning, if_neg Bool.false_ne_true] at h
  obtain ⟨n, rfl, hidle | ⟨e₂, hran, hrest⟩⟩ := settle_eq_ok hsettle
  · rw [turn_eq_act hbegins.take] at hidle
    cases ha : e₁.progress.act e₁.limit c <;> rw [ha] at hidle <;> cases hidle
  · have hx : exhausted? e₁.limit e₁.executed = none := by
      cases hx : exhausted? e₁.limit e₁.executed with
      | none => rfl
      | some k =>
          rw [turn_exhausted hbegins.take hx] at hran
          cases hran
    have hnodes := hbegins.stepNodes_succ (by rwa [← hbegins.limit, ← hbegins.executed]) n
    rw [hran] at hnodes
    refine ⟨_, hnodes, ?_⟩
    constructor
    · intro hnil hk
      have hpending : e₂.skeleton.pending ≠ none := by
        rw [turn_loopClose hbegins.take hx hk] at hran
        obtain rfl := Turn.ran.inj hran
        simp [Skeleton.repeatLoop_of_last hbegins.last]
      exact (hbegins.confined.ran hran).settleNodes_ne_nil hrest hpending hnil
    · intro hk
      obtain ⟨e₁', s', hbegins', hnone⟩ := ho.begins_single (c := c) hs hk
      obtain rfl := Outcome.ok.inj (hbegins.record.symm.trans hbegins'.record)
      exact settleNodes_of_pending_eq_none (hnone e₂ hran) n

/-! ## Scans that a step begins -/

/-- A turn scans a loop only if it has just executed its opening command. -/
theorem Confined.scanned_ran (h : Confined f e) (ht : e.turn = .ran e')
    (hl : e'.skeleton.scanned = some l) : f ≤ l + 1 := by
  have hran := h.ran ht
  obtain ⟨id, hlast, hfirst⟩ := (hran.scans hl).last
  obtain ⟨id', hnode, hlast'⟩ := exists_turnNode? ht
  obtain rfl := Option.some.inj (hlast.symm.trans hlast')
  have hopens := hran.linked.opensAt (Skeleton.IsLoop.of_first? hfirst)
  obtain rfl := Option.some.inj (hfirst.symm.trans hopens.first)
  exact (h.turnNode?_mem hnode).1

theorem AtTurn.le_scanned (h : AtTurn c e e') (ho : e.Ordered)
    (hl : e'.skeleton.scanned = some l) : e.skeleton.ground c ≤ l + 1 := by
  refine (h.induction (P := fun e₁ => Confined (e.skeleton.ground c) e₁ ∧
    (e₁.skeleton.scanned = some l → e.skeleton.ground c ≤ l + 1)) ?_ ?_).2 hl
  · intro e₁ hr hs
    refine ⟨.of_record ho hr hs, fun hl => ?_⟩
    rw [hs] at hl
    cases hl
  · rintro e₁ e₂ ⟨hconfined, -⟩ ht
    exact ⟨hconfined.ran ht, hconfined.scanned_ran ht⟩

theorem StepEnds.ground_le_scanned (h : StepEnds c e (.ok e')) (ho : e.Ordered)
    (hs : e.skeleton.isScanning = false) (hl : e'.skeleton.scanned = some l) :
    e.skeleton.ground c ≤ l + 1 := by
  cases h with
  | scanning hr hne =>
      have hskeleton := skeleton_record c e
      rw [hr, state_ok] at hskeleton
      rw [hskeleton] at hl
      rw [Skeleton.isScanning, Skeleton.scanned_of_record hl] at hs
      cases hs
  | idle hat ht =>
      obtain ⟨rfl, -⟩ := (hat.confined ho).idle ht
      exact hat.le_scanned ho hl

/-- Only an opening command begins a scan. -/
theorem Ordered.scanned_step (ho : e.Ordered) (hs : e.skeleton.isScanning = false)
    (hk : c.kind ≠ .loopOpen) (h : e.step fuel c = some (.ok e')) :
    e'.skeleton.scanned = none := by
  cases hl : e'.skeleton.scanned with
  | none => rfl
  | some l =>
      have hopen := (((stepEnds h).ordered ho).scans hl).isOpen
      have hloops := (sameShape_step h).openLoops
      rw [state_ok] at hloops
      rw [state_ok, hloops] at hopen
      have hlt := ho.linked.lt_ground_of_open hk hopen
      exact absurd ((stepEnds h).ground_le_scanned ho hs hl) (Nat.not_le.mpr hlt)

/-- An opening command begins a scan if it finds a zero cell. -/
theorem Stepped.scanned_step_open (h : Stepped { device, limit } pre e)
    (hs : e.skeleton.isScanning = false) (hk : c.kind = .loopOpen)
    (hstep : e.step fuel c = some (.ok e')) :
    e'.skeleton.scanned = if e.device.tape.current = 0 then some e.skeleton.size else none := by
  have hrest : Resting e.limit pre e.progress e :=
    ⟨h.sameShape, Skeleton.isScanning_eq_false.mp hs, rfl, rfl⟩
  obtain ⟨o, hact, hrel⟩ := (hrest.step_open hk).left _ ⟨fuel, hstep⟩
  cases hrel with
  | @ok _ p hopened =>
      have hdevice : p.device = e.device := by
        rw [Script.Progress.act, charge_eq] at hact
        cases hx : exhausted? e.limit e.progress.executed with
        | some k =>
            rw [hx] at hact
            cases hact
        | none =>
            simp only [hx, hk] at hact
            obtain rfl := Outcome.ok.inj hact
            rfl
      by_cases hz : e.device.tape.current = 0
      · rw [if_pos hz, h.sameShape.size, Skeleton.size_recorded]
        exact (hopened.left (hdevice ▸ hz)).scanned
      · rw [if_neg hz]
        exact (hopened.entered (hdevice ▸ hz)).scanned

theorem skeleton_step_of_scanning (hs : e.skeleton.isScanning = true)
    (h : e.step fuel c = some (.ok e')) : e'.skeleton = (e.skeleton.record c).state := by
  obtain ⟨e₁, hrecord⟩ := exists_record_of_step h
  have hskeleton := skeleton_record c e
  rw [hrecord, state_ok] at hskeleton
  rw [step, hrecord] at h
  dsimp only at h
  by_cases hscan : e₁.skeleton.isScanning
  · rw [if_pos hscan] at h
    obtain rfl := Outcome.ok.inj (Option.some.inj h)
    exact hskeleton
  · rw [if_neg hscan] at h
    have hpending : e₁.skeleton.pending = none := by
      rw [hskeleton]
      refine Skeleton.pending_of_scan_ended (Option.isSome_iff_ne_none.mp hs) ?_
      rw [← hskeleton]
      exact Skeleton.isScanning_eq_false.mp (Bool.not_eq_true _ ▸ hscan)
    have hidle := turn_idle (Skeleton.take_of_pending_eq_none hpending)
    obtain ⟨n, rfl, ht | ⟨e₂, ht, -⟩⟩ := settle_eq_ok h
    · obtain rfl := Turn.idle.inj (hidle.symm.trans ht)
      exact hskeleton
    · cases hidle.symm.trans ht

/-- Outside of a scan, a command that finds no zero cell enters its loop, and a closing command
leaves one. -/
theorem Stepped.entered_step (h : Stepped { device, limit } pre e)
    (hs : e.skeleton.isScanning = false) (hstep : e.step fuel c = some (.ok e')) :
    e'.skeleton.entered + (if c.isLoopClose then 1 else 0) =
      e.skeleton.entered +
        if c.isLoopOpen && decide (e.device.tape.current ≠ 0) then 1 else 0 := by
  have hloops := (sameShape_step hstep).openLoops
  rw [state_ok, Skeleton.openLoops_record] at hloops
  rw [Skeleton.entered_of_scanned_eq_none (Skeleton.isScanning_eq_false.mp hs)]
  cases hk : c.kind with
  | simple action =>
      rw [hk] at hloops
      rw [Skeleton.entered_of_scanned_eq_none (h.ordered.scanned_step hs (by simp [hk]) hstep), hloops]
      simp [Command.isLoopOpen, Command.isLoopClose, hk]
  | loopClose =>
      obtain ⟨_, hrecord⟩ := exists_record_of_step hstep
      have hne := List.length_pos_of_ne_nil (openLoops_of_record_eq_ok hrecord hk)
      rw [hk] at hloops
      rw [Skeleton.entered_of_scanned_eq_none (h.ordered.scanned_step hs (by simp [hk]) hstep), hloops]
      simp [Command.isLoopOpen, Command.isLoopClose, hk]
      omega
  | loopOpen =>
      have hscanned := h.scanned_step_open hs hk hstep
      have hlinked := ((stepEnds hstep).ordered h.ordered).linked
      rw [hk] at hloops
      by_cases hz : e.device.tape.current = 0
      · have hsorted := hlinked.open_sorted
        rw [if_pos hz] at hscanned
        rw [state_ok, hloops] at hsorted
        rw [Skeleton.entered_of_scanned hscanned, hloops, Skeleton.countP_lt_of_sorted hsorted]
        simp [Command.isLoopOpen, Command.isLoopClose, hk, hz]
      · rw [if_neg hz] at hscanned
        rw [Skeleton.entered_of_scanned_eq_none hscanned, hloops]
        simp [Command.isLoopOpen, Command.isLoopClose, hk, hz]

/-! ## One visit -/

/-- A step that ended well: its command, the engines that it found and left, and the nodes
that it executed. -/
structure Visit where
  command : Command
  found : Engine
  left : Engine
  nodes : List Nat

namespace Visit

/-- The node on which the command was recorded. -/
def own (v : Visit) : Nat := v.found.skeleton.size + Skeleton.lead v.command

/-- Nothing was executed. -/
def isIdle (v : Visit) : Bool := v.nodes.isEmpty

/-- The command was executed, and went into the loop that it opened. -/
def enters (v : Visit) : Bool :=
  v.command.isLoopOpen && decide (v.own ∈ v.nodes) && decide (v.found.device.tape.current ≠ 0)

/-- More than the command was executed. -/
def goesBack (v : Visit) : Bool := !v.nodes.tail.isEmpty

/-- What a visit adds to the counts. -/
structure Counts (v : Visit) : Prop where
  own_command : v.left.skeleton.command? v.own = some v.command
  executed : v.left.executed = v.found.executed + v.nodes.length
  skipped : v.left.skeleton.skipped = v.found.skeleton.skipped + if v.isIdle then 1 else 0
  own_mem : v.isIdle = false → v.own ∈ v.nodes
  entered : v.left.skeleton.entered + (if v.goesBack then 1 else 0) =
    v.found.skeleton.entered + if v.enters then 1 else 0

end Visit

theorem Stepped.counts (h : Stepped { device, limit } pre e)
    (hstep : e.step fuel c = some (.ok e')) : Visit.Counts ⟨c, e, e', stepNodes fuel c e⟩ := by
  have hlocal := h.ordered.stepsLocally c
  have hskipped := skipped_step hstep
  by_cases hs : e.skeleton.isScanning = true
  · have hnodes := stepNodes_of_scanning (c := c) hs fuel
    obtain ⟨l, hl⟩ := Option.isSome_iff_exists.mp hs
    have hentered := Skeleton.entered_record h.ordered.linked hl (h.ordered.scans hl).isOpen c
    rw [← skeleton_step_of_scanning hs hstep] at hentered
    rw [if_pos hs] at hskipped
    refine ⟨hlocal.own hstep, hlocal.counts hstep, ?_, ?_, ?_⟩
    · simpa [Visit.isIdle, hnodes] using hskipped
    · simp [Visit.isIdle, hnodes]
    · simpa [Visit.goesBack, Visit.enters, hnodes] using hentered
  · have hs' := Bool.not_eq_true _ ▸ hs
    obtain ⟨ids, hnodes, hids⟩ := h.ordered.stepNodes_of_ok hs' hstep
    have hback : (!ids.isEmpty) = c.isLoopClose := by
      rw [Bool.eq_iff_iff, Bool.not_eq_true', List.isEmpty_eq_false_iff, Ne, hids, not_not,
        Command.isLoopClose]
      cases c.kind <;> simp
    have hentered := h.entered_step hs' hstep
    rw [if_neg hs] at hskipped
    refine ⟨hlocal.own hstep, hlocal.counts hstep, ?_, ?_, ?_⟩
    · simpa [Visit.isIdle, hnodes] using hskipped
    · simp [Visit.own, hnodes]
    · simpa only [Visit.goesBack, Visit.enters, Visit.own, hnodes, List.tail_cons, hback,
        List.mem_cons_self, decide_true, Bool.and_true] using hentered

/-! ## All visits -/

/-- The visits of the steps up to the first that does not end well. -/
def visits (fuel : Nat) : List Command → Engine → List Visit
  | [], _ => []
  | c :: cs, e =>
    match e.step fuel c with
    | some (.ok e') => ⟨c, e, e', stepNodes fuel c e⟩ :: visits fuel cs e'
    | _ => []

/-- What the visits add up to between two engines. -/
structure Visited (cs : List Command) (e : Engine) (visits : List Visit) (e' : Engine) : Prop where
  commands : visits.map (·.command) = cs
  counts : ∀ v ∈ visits, v.Counts
  executed : e'.executed = e.executed + (visits.map (·.nodes.length)).sum
  skipped : e'.skeleton.skipped = e.skeleton.skipped + visits.countP (·.isIdle)
  entered : e'.skeleton.entered + visits.countP (·.goesBack) =
    e.skeleton.entered + visits.countP (·.enters)

theorem Visited.cons {v : Visit} {vs : List Visit} (hv : v.Counts)
    (h : Visited cs v.left vs e') : Visited (v.command :: cs) v.found (v :: vs) e' := by
  refine ⟨congrArg _ h.commands, List.forall_mem_cons.mpr ⟨hv, h.counts⟩, ?_, ?_, ?_⟩
  · rw [List.map_cons, List.sum_cons, h.executed, hv.executed, Nat.add_assoc]
  · rw [List.countP_cons, h.skipped, hv.skipped]
    omega
  · have hrest := h.entered
    have hfirst := hv.entered
    rw [List.countP_cons, List.countP_cons]
    omega

/-- Stepping that ends well visits every command. -/
theorem Stepped.visited (h : Stepped { device, limit } pre e)
    (hs : e.steps fuel cs = some (.ok e')) : Visited cs e (visits fuel cs e) e' := by
  induction cs generalizing pre e with
  | nil =>
      obtain rfl := Outcome.ok.inj (Option.some.inj hs)
      exact ⟨rfl, List.forall_mem_nil _, rfl, rfl, rfl⟩
  | cons c cs ih =>
      rw [steps_cons_eq, chain_eq_some] at hs
      cases hs with
      | ok hstep hnext =>
          rw [visits, hstep]
          exact .cons (h.counts hstep) (ih (h.step hstep) hnext)

end Engine

end TapeScript
