import TapeScript.Proofs.Engine.Acts
import TapeScript.Proofs.Engine.Skipping

/-! # The nodes that a step executes

A step executes the node of its own command, and a closing command leads back into the loop
that it closes and nowhere else. So no step resumes what an earlier one left undone, and none
goes on behind the loop that it closes. -/

namespace TapeScript

namespace Skeleton

@[simp] theorem last_leaveLoop (s : Skeleton) : s.leaveLoop.last = s.last := by
  simp only [leaveLoop]
  split
  · rfl
  · split <;> rfl

@[simp] theorem last_repeatLoop (s : Skeleton) : s.repeatLoop.last = s.last := by
  simp only [repeatLoop]
  split <;> rfl

theorem take_of_pending_eq_none {s : Skeleton} (h : s.pending = none) : s.take = (none, s) := by
  simp only [take, h, Option.bind_none]

/-- Nothing follows the last node. -/
theorem Linked.next?_of_last {s : Skeleton} {f id : Nat} (h : s.Linked) (hsize : s.size = f + 1)
    (hid : f ≤ id) : s.next? id = none := by
  rw [Option.eq_none_iff_forall_ne_some]
  intro b hb
  have hlt := h.next_lt hb
  have hb' := h.next_lt_size hb
  omega

end Skeleton

namespace Engine

variable {c : Command} {e e' : Engine} {s : Skeleton} {o : Outcome Engine} {f id k fuel : Nat}

/-! ## Executed nodes -/

/-- The node that a turn executes: the one that was taken, if an action was counted. -/
def turnNode? (e : Engine) : Option Nat :=
  if e.turn.engine.executed = e.executed then none else e.turn.engine.skeleton.last

/-- The nodes that are executed while turns are taken, in their order. -/
def settleNodes : Nat → Engine → List Nat
  | 0, _ => []
  | fuel + 1, e =>
    e.turnNode?.toList ++
      match e.turn with
      | .ran e' => settleNodes fuel e'
      | _ => []

/-- The nodes that a step executes, in their order, and up to the end of the fuel if the step
does not end before. -/
def stepNodes (fuel : Nat) (c : Command) (e : Engine) : List Nat :=
  match e.record c with
  | .fault _ _ => []
  | .ok e => if e.skeleton.isScanning then [] else settleNodes fuel e

theorem turnNode?_of_take_none (h : e.skeleton.take = (none, s)) : e.turnNode? = none := by
  rw [turnNode?, turn_idle h]
  exact if_pos rfl

theorem turnNode?_of_exhausted (h : e.skeleton.take = (some c, s))
    (hx : exhausted? e.limit e.executed = some k) : e.turnNode? = none := by
  rw [turnNode?, turn_exhausted h hx]
  exact if_pos rfl

/-- A command that is executed is counted, whatever comes of it. -/
theorem Executes.turnNode? (h : e.Executes c s) : e.turnNode? = s.last := by
  obtain ⟨htake, hx⟩ := h
  have hne : e.executed + 1 ≠ e.executed := Nat.succ_ne_self _
  rw [Engine.turnNode?]
  cases hk : c.kind with
  | simple action =>
      rw [turn_simple htake hx hk]
      cases action.run e.device <;> exact if_neg hne
  | loopOpen =>
      rw [turn_loopOpen htake hx hk]
      refine (if_neg hne).trans ?_
      dsimp only [Turn.engine]
      split
      · exact Skeleton.last_leaveLoop s
      · rfl
  | loopClose =>
      rw [turn_loopClose htake hx hk]
      exact (if_neg hne).trans (Skeleton.last_repeatLoop s)

theorem turnNode?_eq_some_iff :
    e.turnNode? = some id ↔ ∃ c s, e.Executes c s ∧ s.last = some id := by
  constructor
  · intro h
    rcases htake : e.skeleton.take with ⟨_ | c, s⟩
    · rw [turnNode?_of_take_none htake] at h
      cases h
    · cases hx : exhausted? e.limit e.executed with
      | some k =>
          rw [turnNode?_of_exhausted htake hx] at h
          cases h
      | none => exact ⟨c, s, ⟨htake, hx⟩, (Executes.turnNode? ⟨htake, hx⟩).symm.trans h⟩
  · rintro ⟨c, s, hexecutes, hlast⟩
    exact hexecutes.turnNode?.trans hlast

/-- Every counted action is one of a node. -/
theorem executed_turn_eq (e : Engine) :
    e.turn.engine.executed = e.executed + e.turnNode?.toList.length := by
  rcases htake : e.skeleton.take with ⟨_ | c, s⟩
  · rw [turnNode?_of_take_none htake, turn_idle htake]
    rfl
  · cases hx : exhausted? e.limit e.executed with
    | some k =>
        rw [turnNode?_of_exhausted htake hx, turn_exhausted htake hx]
        rfl
    | none =>
        obtain ⟨-, id, -, -, -, hs⟩ := Skeleton.take_eq_some htake
        have hlast : s.last = some id := by rw [hs]
        rw [Executes.turnNode? ⟨htake, hx⟩, hlast]
        cases hk : c.kind with
        | simple action =>
            rw [turn_simple htake hx hk]
            cases action.run e.device <;> rfl
        | loopOpen =>
            rw [turn_loopOpen htake hx hk]
            rfl
        | loopClose =>
            rw [turn_loopClose htake hx hk]
            rfl

theorem executed_settle (h : e.settle fuel = some o) :
    o.state.executed = e.executed + (settleNodes fuel e).length := by
  induction fuel generalizing e with
  | zero => cases h
  | succ fuel ih =>
      have hturn := executed_turn_eq e
      rw [settle] at h
      rw [settleNodes, List.length_append, ← Nat.add_assoc, ← hturn]
      cases ht : e.turn with
      | idle e' =>
          rw [ht] at h
          obtain rfl := Option.some.inj h
          rfl
      | stopped cause e' =>
          rw [ht] at h
          obtain rfl := Option.some.inj h
          rfl
      | ran e' =>
          rw [ht] at h
          exact ih h

theorem executed_step (h : e.step fuel c = some o) :
    o.state.executed = e.executed + (stepNodes fuel c e).length := by
  have hrecord := (record_limit c e).2
  rw [step] at h
  rw [stepNodes]
  cases hr : e.record c with
  | fault cause e₁ =>
      rw [hr] at h hrecord
      obtain rfl := Option.some.inj h
      exact hrecord
  | ok e₁ =>
      rw [hr, Outcome.state_ok] at hrecord
      rw [hr] at h
      dsimp only at h ⊢
      rw [← hrecord]
      by_cases hs : e₁.skeleton.isScanning
      · rw [if_pos hs] at h ⊢
        obtain rfl := Option.some.inj h
        rfl
      · rw [if_neg hs] at h ⊢
        exact executed_settle h

/-! ## Where executed nodes lie -/

theorem settleNodes_of_pending_eq_none (h : e.skeleton.pending = none) (fuel : Nat) :
    settleNodes fuel e = [] := by
  have htake := Skeleton.take_of_pending_eq_none h
  cases fuel with
  | zero => rfl
  | succ fuel => rw [settleNodes, turnNode?_of_take_none htake, turn_idle htake]; rfl

theorem settleNodes_of_exhausted (hx : exhausted? e.limit e.executed = some k) (fuel : Nat) :
    settleNodes fuel e = [] := by
  cases fuel with
  | zero => rfl
  | succ fuel =>
      rw [settleNodes]
      rcases htake : e.skeleton.take with ⟨_ | c, s⟩
      · rw [turnNode?_of_take_none htake, turn_idle htake]
        rfl
      · rw [turnNode?_of_exhausted htake hx, turn_exhausted htake hx]
        rfl

theorem Confined.turnNode?_mem (h : Confined f e) (hid : e.turnNode? = some id) :
    f ≤ id ∧ id < e.skeleton.size := by
  obtain ⟨c, s, hexecutes, hlast⟩ := turnNode?_eq_some_iff.mp hid
  obtain ⟨id', htakes⟩ := h.takes hexecutes.1
  obtain rfl := Option.some.inj (hlast.symm.trans htakes.last)
  exact ⟨htakes.le_id, Skeleton.lt_size_of_command? htakes.command⟩

/-- Whatever was due before, turns stay in the part of the record that a step begins in. -/
theorem Confined.settleNodes_mem (h : Confined f e) (hid : id ∈ settleNodes fuel e) :
    f ≤ id ∧ id < e.skeleton.size := by
  induction fuel generalizing e with
  | zero => cases hid
  | succ fuel ih =>
      rw [settleNodes, List.mem_append, Option.mem_toList] at hid
      rcases hid with hid | hid
      · exact h.turnNode?_mem hid
      · cases ht : e.turn with
        | idle e' =>
            rw [ht] at hid
            cases hid
        | stopped cause e' =>
            rw [ht] at hid
            cases hid
        | ran e' =>
            have hshape := sameShape_turn e
            rw [ht] at hid hshape
            have hsize : e'.skeleton.size = e.skeleton.size := hshape.size
            exact hsize ▸ ih (h.ran ht) hid

/-- Behind the last node nothing is due, unless it ends a loop. -/
theorem Confined.pending_ran (h : Confined f e) (hsize : e.skeleton.size = f + 1)
    (htake : e.skeleton.take = (some c, s)) (hk : c.kind ≠ .loopClose)
    (ht : e.turn = .ran e') : e'.skeleton.pending = none := by
  obtain ⟨id, htakes⟩ := h.takes htake
  have hpending : s.pending = none := by
    rw [htakes.skeleton]
    exact h.linked.next?_of_last hsize htakes.le_id
  rw [turn_eq_act htake] at ht
  cases ha : e.progress.act e.limit c with
  | fault cause p =>
      rw [ha] at ht
      cases ht
  | ok p =>
      rw [ha] at ht
      obtain rfl := Turn.ran.inj ht
      cases hkind : c.kind with
      | simple action =>
          simp only [Engine.passed, hkind]
          exact hpending
      | loopOpen =>
          simp only [Engine.passed, hkind]
          split
          · obtain ⟨l, hopens⟩ := htakes.opensLoop h hkind
            have hown := (htakes.sameShape.ownLoop? id).trans hopens.own
            have hlt := Skeleton.lt_size_of_command? htakes.command
            have hle := htakes.le_id
            have hfirst := hopens.id_eq
            rw [Skeleton.leaveLoop_of_last htakes.last hown]
            exact (htakes.sameShape.next? l).trans (h.confines.leaves (by omega) hopens.isLoop)
          · exact hpending
      | loopClose => exact absurd hkind hk

/-! ## The first turn of a step -/

/-- The command was recorded and is due, and no scan goes on. -/
structure Begins (c : Command) (e e₁ : Engine) (s : Skeleton) : Prop where
  record : e.record c = .ok e₁
  isScanning : e₁.skeleton.isScanning = false
  confined : Confined (e.skeleton.ground c) e₁
  take : e₁.skeleton.take = (some c, s)
  last : s.last = some (e.skeleton.size + Skeleton.lead c)
  size : e₁.skeleton.size = e.skeleton.size + Skeleton.lead c + 1
  limit : e₁.limit = e.limit
  executed : e₁.executed = e.executed

/-- A step begins with its own command, whatever was due before. -/
theorem Ordered.begins (ho : e.Ordered) (hs : e.skeleton.isScanning = false)
    (hc : c.kind = .loopClose → e.skeleton.openLoops ≠ []) : ∃ e₁ s, Begins c e e₁ s := by
  have hscanned := Skeleton.isScanning_eq_false.mp hs
  have hrecord := record_eq_ok hc
  have hscan : c.kind = .loopClose → e.skeleton.scanned ≠ e.skeleton.innermost := by
    intro hk heq
    rw [hscanned, Skeleton.innermost, eq_comm, List.head?_eq_none_iff] at heq
    exact hc hk heq
  have hnone := (Skeleton.scanned_record hscan).trans hscanned
  have hcommand : (e.skeleton.record c).state.command? (e.skeleton.size + Skeleton.lead c) =
      some c := by
    rw [Skeleton.command?_state_record, if_pos rfl]
  have hdue : (e.skeleton.record c).state.pending.bind (e.skeleton.record c).state.target? =
      some (e.skeleton.size + Skeleton.lead c) := by
    rw [Skeleton.pending_record hscan]
    exact Skeleton.target?_of_command? hcommand
  exact ⟨_, _, hrecord, Skeleton.isScanning_eq_false.mpr hnone, .of_record ho hrecord hnone,
    take_of_due hdue hcommand, rfl, Skeleton.size_record _ _, rfl, rfl⟩

namespace Begins

variable {e₁ : Engine}

theorem stepNodes_eq (h : Begins c e e₁ s) (fuel : Nat) :
    stepNodes fuel c e = settleNodes fuel e₁ := by
  rw [stepNodes, h.record]
  exact if_neg (by simp [h.isScanning])

/-- The first node is that of the command. -/
theorem stepNodes_succ (h : Begins c e e₁ s) (hx : exhausted? e.limit e.executed = none)
    (fuel : Nat) :
    stepNodes (fuel + 1) c e = (e.skeleton.size + Skeleton.lead c) ::
      match e₁.turn with
      | .ran e' => settleNodes fuel e'
      | _ => [] := by
  have hexecutes : e₁.Executes c s := ⟨h.take, by rw [h.limit, h.executed, hx]⟩
  rw [h.stepNodes_eq, settleNodes, hexecutes.turnNode?, h.last]
  rfl

/-- A step ends if its first turn leaves nothing due. -/
theorem exists_step (h : Begins c e e₁ s)
    (hnone : ∀ e', e₁.turn = .ran e' → e'.skeleton.pending = none) : ∃ o, Step c e o := by
  have hscanned := Skeleton.isScanning_eq_false.mp h.isScanning
  simp only [step_of_settle h.record hscanned]
  cases ht : e₁.turn with
  | idle e' => exact ⟨_, settle_of_idle ht⟩
  | stopped cause e' => exact ⟨_, settle_of_stopped ht⟩
  | ran e' =>
      have hidle := settle_of_idle (turn_idle (Skeleton.take_of_pending_eq_none (hnone e' ht)))
      exact ⟨_, ((continues_of_ran ht).halts_iff (steady_settle e₁) _).mpr hidle⟩

end Begins

/-- Only a closing command leads on to a second turn. -/
theorem Ordered.begins_single (ho : e.Ordered) (hs : e.skeleton.isScanning = false)
    (hk : c.kind ≠ .loopClose) :
    ∃ e₁ s, Begins c e e₁ s ∧ ∀ e', e₁.turn = .ran e' → e'.skeleton.pending = none := by
  obtain ⟨e₁, s, hbegins⟩ := ho.begins (c := c) hs fun hclose => absurd hclose hk
  have hconfined := hbegins.confined
  rw [Skeleton.ground_of_ne_loopClose hk] at hconfined
  exact ⟨e₁, s, hbegins, fun e' => hconfined.pending_ran hbegins.size hbegins.take hk⟩

/-! ## Steps after any others -/

/-- A step executes the node of its command, and only a closing command leads to others: to
those of the loop that it closes. -/
structure StepsLocally (c : Command) (e : Engine) : Prop where
  counts : ∀ ⦃fuel o⦄, e.step fuel c = some o →
    o.state.executed = e.executed + (stepNodes fuel c e).length
  own : ∀ ⦃fuel o⦄, e.step fuel c = some o →
    o.state.skeleton.command? (e.skeleton.size + Skeleton.lead c) = some c
  scanning : e.skeleton.isScanning = true → ∀ fuel, stepNodes fuel c e = []
  exhausted : ∀ ⦃k⦄, e.limit = some k → k ≤ e.executed → ∀ fuel, stepNodes fuel c e = []
  ends : c.kind ≠ .loopClose → ∃ o, Step c e o
  single : e.skeleton.isScanning = false → c.kind ≠ .loopClose →
    (∀ k, e.limit = some k → e.executed < k) →
    ∀ fuel, stepNodes (fuel + 1) c e = [e.skeleton.size + Skeleton.lead c]
  unmatched : c.kind = .loopClose → e.skeleton.depth = 0 → ∀ fuel, stepNodes fuel c e = []
  closing : ∀ ⦃l⦄, e.skeleton.isScanning = false → c.kind = .loopClose →
    e.skeleton.innermost = some l → (∀ k, e.limit = some k → e.executed < k) →
    ∀ fuel, ∃ ids, stepNodes (fuel + 1) c e = e.skeleton.size :: ids ∧
      ∀ id ∈ ids, l < id ∧ id ≤ e.skeleton.size

/-- What is recorded while a scan goes on is not executed, also if it ends the scan. -/
theorem stepNodes_of_scanning (hs : e.skeleton.isScanning = true) (fuel : Nat) :
    stepNodes fuel c e = [] := by
  have hstate := state_record c e
  rw [stepNodes]
  cases hr : e.record c with
  | fault cause e₁ => rfl
  | ok e₁ =>
      rw [hr, Outcome.state_ok] at hstate
      subst hstate
      by_cases hscan : (e.skeleton.record c).state.scanned = none
      · have hended := Skeleton.pending_of_scan_ended (Option.isSome_iff_ne_none.mp hs) hscan
        refine (if_neg (by simp [Skeleton.isScanning, hscan])).trans ?_
        exact settleNodes_of_pending_eq_none hended fuel
      · exact if_pos (Option.isSome_iff_ne_none.mpr hscan)

theorem stepNodes_of_exhausted (hx : exhausted? e.limit e.executed = some k) (fuel : Nat) :
    stepNodes fuel c e = [] := by
  have hrecord := record_limit c e
  rw [stepNodes]
  cases hr : e.record c with
  | fault cause e₁ => rfl
  | ok e₁ =>
      rw [hr, Outcome.state_ok] at hrecord
      rw [← hrecord.1, ← hrecord.2] at hx
      dsimp only
      split
      · rfl
      · exact settleNodes_of_exhausted hx fuel

/-- A close without a loop is not executed. -/
theorem stepNodes_of_unmatched (hk : c.kind = .loopClose) (hopen : e.skeleton.openLoops = [])
    (fuel : Nat) : stepNodes fuel c e = [] := by
  rw [stepNodes]
  cases hr : e.record c with
  | fault cause e₁ => rfl
  | ok e₁ => exact absurd hopen (openLoops_of_record_eq_ok hr hk)

theorem Ordered.stepsLocally (ho : e.Ordered) (c : Command) : StepsLocally c e where
  counts _ _ := executed_step
  own := by
    intro fuel o h
    rw [(sameShape_step h).command?, Skeleton.command?_state_record, if_pos rfl]
  scanning := stepNodes_of_scanning
  exhausted := by
    intro k hl hle
    exact stepNodes_of_exhausted (k := k) (by simp [exhausted?, hl, hle])
  ends := by
    intro hk
    by_cases hs : e.skeleton.isScanning = true
    · have hrecord := record_eq_ok (c := c) (e := e) fun hclose => absurd hclose hk
      have hscanned : (e.skeleton.record c).state.scanned ≠ none := by
        rw [Skeleton.scanned_record fun hclose => absurd hclose hk]
        exact Option.isSome_iff_ne_none.mp hs
      exact ⟨_, (step_of_scanning hrecord hscanned).mpr rfl⟩
    · obtain ⟨e₁, s, hbegins, hnone⟩ := ho.begins_single (Bool.not_eq_true _ ▸ hs) hk
      exact hbegins.exists_step hnone
  single := by
    intro hs hk hx fuel
    obtain ⟨e₁, s, hbegins, hnone⟩ := ho.begins_single hs hk
    rw [hbegins.stepNodes_succ (exhausted?_eq_none_iff.mpr hx)]
    cases ht : e₁.turn with
    | idle e' => rfl
    | stopped cause e' => rfl
    | ran e' =>
        dsimp only
        rw [settleNodes_of_pending_eq_none (hnone e' ht)]
  unmatched hk hdepth := stepNodes_of_unmatched hk (List.length_eq_zero_iff.mp hdepth)
  closing := by
    intro l hs hk hl hx fuel
    obtain ⟨e₁, s, hbegins⟩ := ho.begins (c := c) hs fun _ ho' => by
      rw [Skeleton.innermost, ho'] at hl
      cases hl
    have hconfined := hbegins.confined
    have hsize := hbegins.size
    have hlead : Skeleton.lead c = 0 := by simp only [Skeleton.lead, hk]
    rw [Skeleton.ground_loopClose hk hl] at hconfined
    rw [hbegins.stepNodes_succ (exhausted?_eq_none_iff.mpr hx)]
    rw [hlead, Nat.add_zero] at hsize ⊢
    refine ⟨_, rfl, fun id hid => ?_⟩
    have hmem : id ∈ settleNodes (fuel + 1) e₁ := by
      rw [settleNodes]
      exact List.mem_append_right _ hid
    obtain ⟨hle, hlt⟩ := hconfined.settleNodes_mem hmem
    omega

/-- After any other steps, whatever came of them, a step is local. -/
theorem steps_locally {device : Device} {limit : Option Nat} {commands : List Command}
    (h : Stepped { device, limit } commands e) (c : Command) : StepsLocally c e :=
  h.ordered.stepsLocally c

/-- What an unmatched close left due is not resumed. -/
theorem steps_locally_unmatched :
    let device : Device := ⟨.blank 1 Nat.one_pos, .ofBytes [], {}⟩
    let closing : Command := ⟨']'.toUInt8, .loopClose⟩
    let opening : Command := ⟨'['.toUInt8, .loopOpen⟩
    ∃ e, Stepped { device } [closing] e ∧ e.skeleton.pending = some 0 ∧
      StepsLocally opening e ∧ stepNodes 3 opening e = [2] := by
  intro device closing opening
  have hstepped : Stepped { device } [closing] _ := @Stepped.step _ _ _ 2 closing _ .fresh rfl
  exact ⟨_, hstepped, rfl, steps_locally hstepped opening, rfl⟩

end Engine

end TapeScript
