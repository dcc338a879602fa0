import TapeScript.Proofs.Engine.Limit

/-! # Where a limit cuts stepping off

Stepping under a limit shows the moments of stepping without it until as many actions are
executed, and the device stays as it was then. -/

namespace TapeScript.Engine

variable {k : Nat} {c : Command} {cs : List Command} {e e' m : Engine} {o : Outcome Engine}

/-! ## The limit as a bound -/

/-- The limit holds and is not exceeded. -/
def WithinLimit (k : Nat) (e : Engine) : Prop := e.limit = some k ∧ e.executed ≤ k

theorem executed_turn_le (h : WithinLimit k e) : e.turn.engine.executed ≤ k := by
  obtain ⟨hl, hk⟩ := h
  rcases ht : e.skeleton.take with ⟨_ | c, s⟩
  · rw [turn_idle ht]
    exact hk
  · rcases Nat.lt_or_ge e.executed k with hlt | hge
    · have hcount := executed_act e.progress c
      rw [turn_eq_act ht, hl, act_of_lt (p := e.progress) hlt]
      generalize e.progress.act none c = o at hcount
      have hle : o.state.executed ≤ k := Nat.le_trans (Nat.le_of_eq hcount) hlt
      cases o <;> exact hle
    · rw [turn_eq_act ht, hl, act_of_ge (p := e.progress) hge]
      exact hk

theorem kept_withinLimit (k : Nat) : Kept (WithinLimit k) where
  skeleton := fun _ _ h => h
  turn := fun e h => ⟨(limit_turn e).trans h.1, executed_turn_le h⟩

/-! ## Exhausted engines -/

/-- Nothing but the skeleton has changed. -/
def SameBench (e e' : Engine) : Prop := ∃ s, e' = { e with skeleton := s }

/-- No further action is allowed. -/
def Exhausted (k : Nat) (e : Engine) : Prop := e.limit = some k ∧ k ≤ e.executed

theorem Exhausted.of_sameBench (h : Exhausted k e) (hs : SameBench e e') : Exhausted k e' := by
  obtain ⟨s, rfl⟩ := hs
  exact h

theorem Exhausted.sameBench_turn (h : Exhausted k e) : SameBench e e.turn.engine := by
  obtain ⟨hl, hk⟩ := h
  refine ⟨e.skeleton.take.2, ?_⟩
  rcases ht : e.skeleton.take with ⟨_ | c, s⟩
  · rw [turn_idle ht]
    rfl
  · rw [turn_eq_act ht, hl, act_of_ge (p := e.progress) hk]
    rw [← hl]
    rfl

theorem Exhausted.kept (h : Exhausted k e) : Kept (SameBench e) where
  skeleton := by
    rintro _ s ⟨s', rfl⟩
    exact ⟨s, rfl⟩
  turn := by
    intro e' he'
    obtain ⟨s, hs⟩ := (h.of_sameBench he').sameBench_turn
    obtain ⟨s', rfl⟩ := he'
    exact ⟨s, hs⟩

theorem Exhausted.steps (h : Exhausted k e) (ho : Steps cs e o) : SameBench e o.state := by
  obtain ⟨fuel, ho⟩ := ho
  exact h.kept.steps ⟨e.skeleton, rfl⟩ ho

/-- A step from `e` on ends as the turns from `e'` on do. -/
theorem AtTurn.step_iff (h : AtTurn c e e') : Step c e o ↔ Halts (settle · e') o := by
  obtain ⟨e₁, hrecord, hscanned, hturns⟩ := h
  rw [step_of_settle hrecord hscanned]
  induction hturns with
  | refl => exact Iff.rfl
  | tail _ ht ih => exact ih.trans ((continues_of_ran ht).halts_iff (steady_settle _) o)

/-- What a turn leaves behind and every further turn keeps holds once the engine settles. -/
theorem Kept.of_turned {P : Engine → Prop} (hP : Kept P) (h : P e.turn.engine)
    (ho : Halts (settle · e) o) : P o.state := by
  cases ht : e.turn with
  | idle e₁ =>
      rw [ht] at h
      obtain rfl := ho.unique (steady_settle e) (settle_of_idle ht)
      exact h
  | stopped cause e₁ =>
      rw [ht] at h
      obtain rfl := ho.unique (steady_settle e) (settle_of_stopped ht)
      exact h
  | ran e₁ =>
      rw [ht] at h
      rw [(continues_of_ran ht).halts_iff (steady_settle e)] at ho
      obtain ⟨fuel, ho⟩ := ho
      exact settle_induction hP.turn h ho

/-- Behind a moment at which the limit is reached only the skeleton changes. -/
theorem Exhausted.step_of_moment (h : Exhausted k m) (hm : Moment c e m) (ho : Step c e o) :
    SameBench m o.state := by
  have hwhole (s : Skeleton) (he : Exhausted k e) : SameBench { e with skeleton := s } o.state := by
    obtain ⟨fuel, ho⟩ := ho
    exact he.kept.step ⟨e.skeleton, rfl⟩ ho
  cases hm with
  | begun => exact hwhole _ h
  | appended => exact hwhole _ h
  | recorded =>
      rw [state_record] at h ⊢
      exact hwhole _ h
  | @taken e' hturn =>
      obtain ⟨fuel, hsettle⟩ := hturn.step_iff.mp ho
      exact settle_induction h.kept.turn ⟨e'.skeleton, rfl⟩ hsettle
  | @turned e' hturn =>
      exact h.kept.of_turned ⟨e'.turn.engine.skeleton, rfl⟩ (hturn.step_iff.mp ho)

theorem Exhausted.steps_of_passes (h : Exhausted k m) (hm : Passes cs e m) (ho : Steps cs e o) :
    SameBench m o.state := by
  induction hm with
  | @here c cs e m hmoment =>
      rw [steps_cons] at ho
      cases ho with
      | fault ho => exact h.step_of_moment hmoment ho
      | ok ho hnext =>
          have hsame := h.step_of_moment hmoment ho
          obtain ⟨s, hs⟩ := (h.of_sameBench hsame).steps hnext
          obtain ⟨s', rfl⟩ := hsame
          exact ⟨s, hs⟩
  | @later fuel c cs e e' m hstep _ ih =>
      rw [steps_cons] at ho
      cases ho with
      | fault ho => cases ho.unique (steady_step c e) ⟨fuel, hstep⟩
      | ok ho hnext =>
          obtain rfl := Outcome.ok.inj (ho.unique (steady_step c e) ⟨fuel, hstep⟩)
          exact ih h hnext

/-! ## The same moments up to the limit -/

theorem Turns.limited (hl : e.limit = none) (h : Turns e e') (hk : e'.executed ≤ k) :
    Turns (e.limited k) (e'.limited k) := by
  induction h with
  | refl => exact .refl
  | @tail e₁ e₂ hbefore ht ih =>
      have hl₁ := ((kept_count 0).turns ⟨Nat.zero_le _, hl⟩ hbefore).2
      have hle := executed_le_turn hl₁
      have hturn := turn_limited (k := k) hl₁
      rw [ht] at hle hturn
      exact (ih (Nat.le_trans hle hk)).tail (hturn hk)

theorem AtTurn.limit_eq (hl : e.limit = none) (h : AtTurn c e e') : e'.limit = none :=
  ((kept_count 0).atTurn ⟨Nat.zero_le _, hl⟩ h).2

theorem AtTurn.limited (hl : e.limit = none) (h : AtTurn c e e') (hk : e'.executed ≤ k) :
    AtTurn c (e.limited k) (e'.limited k) := by
  obtain ⟨e₁, hrecord, hscanned, hturns⟩ := h
  have hl₁ := (record_limit c e).1.trans hl
  rw [hrecord] at hl₁
  exact ⟨e₁.limited k, by rw [record_limited, hrecord]; rfl, hscanned, hturns.limited hl₁ hk⟩

theorem Turn.engine_map (g : Engine → Engine) (t : Turn) : (t.map g).engine = g t.engine := by
  cases t <;> rfl

theorem Moment.limited (hl : e.limit = none) (h : Moment c e m) (hk : m.executed ≤ k) :
    Moment c (e.limited k) (m.limited k) := by
  cases h with
  | begun hc => exact .begun hc
  | appended hc => exact .appended hc
  | recorded =>
      have hstate := congrArg Outcome.state (record_limited c e k)
      rw [Outcome.state_map] at hstate
      exact hstate ▸ .recorded
  | taken hturn => exact .taken (hturn.limited hl hk)
  | @turned e' hturn =>
      have hl' := hturn.limit_eq hl
      have hle := executed_le_turn hl'
      have hmoment := Moment.turned (hturn.limited hl (Nat.le_trans hle hk))
      rwa [turn_limited hl' hk, Turn.engine_map] at hmoment

theorem Passes.limited (hl : e.limit = none) (h : Passes cs e m) (hk : m.executed ≤ k) :
    Passes cs (e.limited k) (m.limited k) := by
  induction h with
  | here h => exact .here (h.limited hl hk)
  | @later fuel c cs e e' m hstep h ih =>
      obtain ⟨-, hl'⟩ := executed_le_step hl hstep
      have hle := ((kept_count e'.executed).passes ⟨Nat.le_refl _, hl'⟩ h).1
      exact .later (step_limited hl hstep (Nat.le_trans hle hk)) (ih hl' hk)

/-- When as many actions are executed as the limit allows, the device is as the limited engine
leaves it. -/
theorem device_of_passes (hl : e.limit = none) (h : Passes cs e m) (hk : m.executed = k)
    (ho : Steps cs (e.limited k) o) :
    o.state.device = m.device ∧ o.state.executed = k := by
  have hexhausted : Exhausted k (m.limited k) := ⟨rfl, Nat.le_of_eq hk.symm⟩
  obtain ⟨s, hs⟩ := hexhausted.steps_of_passes (h.limited hl (Nat.le_of_eq hk)) ho
  rw [hs]
  exact ⟨rfl, hk⟩

end TapeScript.Engine
