import TapeScript.Proofs.Engine.Cutoff
import TapeScript.Proofs.Engine.Discipline

/-! # Why stepping fails

A step fails in two ways only. Its command closes no open loop, or a turn is stopped: by the
limit, or by the action of a recorded command. -/

namespace TapeScript

/-! ## What all recorded commands share -/

namespace Skeleton

variable {P : Command → Prop} {s t : Skeleton} {c : Command}

/-- All recorded commands have this property. -/
def Holds (P : Command → Prop) (s : Skeleton) : Prop := ∀ ⦃id c⦄, s.command? id = some c → P c

theorem Holds.empty : Holds P {} := by
  intro id c h
  have hlt := lt_size_of_command? h
  exact absurd hlt (Nat.not_lt_zero id)

theorem Holds.of_sameShape (h : t.Holds P) (hs : s.SameShape t) : s.Holds P := by
  intro id c hc
  rw [hs.command?] at hc
  exact h hc

theorem Holds.record (h : s.Holds P) (hc : P c) : (s.record c).state.Holds P := by
  intro id d hd
  simp only [Skeleton.record] at hd
  cases hk : c.kind with
  | simple action =>
      simp only [hk, Outcome.state_ok, command?_push] at hd
      split at hd
      · exact Option.some.inj hd ▸ hc
      · exact h hd
  | loopOpen =>
      simp only [hk, Outcome.state_ok, Chained.command?_opened] at hd
      split at hd
      · exact Option.some.inj hd ▸ hc
      · exact h hd
  | loopClose =>
      simp only [hk, command?_sealLoop, command?_push] at hd
      split at hd
      · exact Option.some.inj hd ▸ hc
      · exact h hd

end Skeleton

namespace Engine

open Outcome

variable {P : Command → Prop} {c : Command} {cs pre post : List Command} {e e' e₁ m : Engine}
  {cause : Fault} {o : Outcome Engine} {fuel : Nat}

theorem holds_step (he : e.skeleton.Holds P) (hc : P c) (h : e.step fuel c = some o) :
    o.state.skeleton.Holds P :=
  (he.record hc).of_sameShape (sameShape_step h)

theorem AtTurn.holds (h : AtTurn c e m) (he : e.skeleton.Holds P) (hc : P c) :
    m.skeleton.Holds P := by
  refine h.induction (P := fun m => m.skeleton.Holds P) ?_ ?_
  · intro e₁ hr _
    have hrecord := he.record hc
    rwa [← skeleton_record, hr] at hrecord
  · intro e₁ e₂ h₁ ht
    have hshape := sameShape_turn e₁
    rw [ht] at hshape
    exact h₁.of_sameShape hshape

/-- A turn takes none but commands that were recorded. -/
theorem TurnsIn.holds (h : TurnsIn cs e m) (he : e.skeleton.Holds P) (hcs : ∀ c ∈ cs, P c) :
    m.skeleton.Holds P := by
  induction h with
  | here h => exact h.holds he (hcs _ List.mem_cons_self)
  | later hstep _ ih =>
      have hhead := hcs _ List.mem_cons_self
      exact ih (holds_step he hhead hstep) fun c hc => hcs c (List.mem_cons_of_mem _ hc)

/-- What a turn leaves behind is a moment of the step. -/
theorem TurnsIn.passes_turn (h : TurnsIn cs e m) : Passes cs e m.turn.engine := by
  induction h with
  | here h => exact .here (.turned h)
  | later hstep _ ih => exact .later hstep ih

/-! ## Turns that are stopped -/

/-- What keeps a command from being executed to its end. -/
inductive Stops (e : Engine) (c : Command) : Fault → Prop where
  | limit {k : Nat} (h : exhausted? e.limit e.executed = some k) : Stops e c (.limitReached k)
  | action {action : Action} {cause : Fault} {device : Device} (hk : c.kind = .simple action)
      (h : action.run e.device = .fault cause device) : Stops e c cause

theorem stops_of_stopped (h : e.turn = .stopped cause e') :
    ∃ id c, e.skeleton.command? id = some c ∧ Stops e c cause := by
  rcases htake : e.skeleton.take with ⟨_ | c, s⟩
  · rw [turn_idle htake] at h
    cases h
  · obtain ⟨p, id, -, -, hc, -⟩ := Skeleton.take_eq_some htake
    refine ⟨id, c, hc, ?_⟩
    cases hx : exhausted? e.limit e.executed with
    | some k =>
        rw [turn_exhausted htake hx] at h
        obtain ⟨rfl, -⟩ := Turn.stopped.inj h
        exact .limit hx
    | none =>
        cases hk : c.kind with
        | simple action =>
            rw [turn_simple htake hx hk] at h
            cases hrun : action.run e.device with
            | ok device => rw [hrun] at h; cases h
            | fault cause' device =>
                rw [hrun] at h
                obtain ⟨rfl, -⟩ := Turn.stopped.inj h
                exact .action hk hrun
        | loopOpen => rw [turn_loopOpen htake hx hk] at h; cases h
        | loopClose => rw [turn_loopClose htake hx hk] at h; cases h

/-! ## Commands that are refused -/

theorem of_record_eq_fault (h : e.record c = .fault cause e') :
    c.kind = .loopClose ∧ e.skeleton.openLoops = [] ∧ cause = .unmatchedClose := by
  have hfault : (e.record c).fault? = (e.skeleton.record c).fault? := fault?_map _ _
  rw [h, Skeleton.record, fault?_fault] at hfault
  cases hk : c.kind with
  | simple action => rw [hk] at hfault; cases hfault
  | loopOpen => rw [hk] at hfault; cases hfault
  | loopClose =>
      simp only [hk, Skeleton.fault?_sealLoop] at hfault
      by_cases hopen : (e.skeleton.push c).openLoops = []
      · rw [if_pos hopen] at hfault
        exact ⟨rfl, Skeleton.openLoops_push c _ ▸ hopen, Option.some.inj hfault⟩
      · rw [if_neg hopen] at hfault
        cases hfault

/-! ## The step that fails -/

/-- Stepping leaves behind a moment of a step, unless there is nothing to step through. -/
theorem Steps.passes (h : Steps cs e o) : o.state = e ∨ Passes cs e o.state := by
  induction cs generalizing e with
  | nil =>
      obtain rfl := steps_nil.mp h
      exact .inl rfl
  | cons c cs ih =>
      rw [steps_cons] at h
      cases h with
      | fault h =>
          obtain ⟨fuel, h⟩ := h
          exact .inr (.here (stepEnds h).moment)
      | ok h hnext =>
          obtain ⟨fuel, h⟩ := h
          rcases ih hnext with heq | hpasses
          · exact .inr (.here (heq ▸ (stepEnds h).moment))
          · exact .inr (.later h hpasses)

/-- Stepping that fails has come up to a command, and fails at that one. -/
theorem Steps.exists_failing (h : Steps cs e (.fault cause e')) :
    ∃ pre c post e₁, cs = pre ++ c :: post ∧ Steps pre e (.ok e₁) ∧
      Step c e₁ (.fault cause e') := by
  induction cs generalizing e with
  | nil => cases steps_nil.mp h
  | cons c cs ih =>
      rw [steps_cons] at h
      cases h with
      | fault h => exact ⟨[], c, cs, e, rfl, steps_nil.mpr rfl, h⟩
      | ok h hnext =>
          obtain ⟨pre, d, post, e₁, rfl, hpre, hd⟩ := ih hnext
          exact ⟨c :: pre, d, post, e₁, rfl, steps_cons.mpr (.ok h hpre), hd⟩

theorem AtTurn.turnsIn (h : AtTurn c e₁ m) (hpre : Steps pre e (.ok e₁)) (post : List Command) :
    TurnsIn (pre ++ c :: post) e m := by
  induction pre generalizing e with
  | nil =>
      obtain rfl := Outcome.ok.inj (steps_nil.mp hpre)
      exact .here h
  | cons d pre ih =>
      rw [steps_cons] at hpre
      cases hpre with
      | ok hstep hnext =>
          obtain ⟨fuel, hstep⟩ := hstep
          exact .later hstep (ih hnext)

/-- Where a turn is stopped, so is the stepping. -/
theorem TurnsIn.steps_of_stopped (h : TurnsIn cs e m) (ht : m.turn = .stopped cause e') :
    Steps cs e (.fault cause e') := by
  induction h with
  | here h => exact steps_cons.mpr (.fault (h.step_iff.mpr (settle_of_stopped ht)))
  | later hstep _ ih => exact steps_cons.mpr (.ok ⟨_, hstep⟩ (ih ht))

/-- Stepping fails at a close without an open loop, or where a turn is stopped. -/
inductive Fails (cs : List Command) (e : Engine) (cause : Fault) : Prop where
  | refused {pre : List Command} {c : Command} {post : List Command} {e₁ : Engine}
      (hcs : cs = pre ++ c :: post) (hpre : Steps pre e (.ok e₁)) (hk : c.kind = .loopClose)
      (hopen : e₁.skeleton.openLoops = []) (hcause : cause = .unmatchedClose)
  | stopped {m e' : Engine} (h : TurnsIn cs e m) (ht : m.turn = .stopped cause e')

theorem Steps.fails (h : Steps cs e (.fault cause e')) : Fails cs e cause := by
  obtain ⟨pre, c, post, e₁, rfl, hpre, fuel, hc⟩ := h.exists_failing
  cases stepEnds hc with
  | refused hr =>
      obtain ⟨hk, hopen, hcause⟩ := of_record_eq_fault hr
      exact .refused rfl hpre hk hopen hcause
  | stopped hat ht => exact .stopped (hat.turnsIn hpre post) ht

end Engine

end TapeScript
