import TapeScript.Proofs.Engine.Feed
import TapeScript.Proofs.Engine.Moments

/-! # Limited engines

Under a limit an engine takes the same turns until the limit is reached, and so it always
stops. -/

namespace TapeScript

open Outcome Script

theorem Outcome.map_map {σ τ υ : Type} (f : σ → τ) (g : τ → υ) (o : Outcome σ) :
    (o.map f).map g = o.map (g ∘ f) := by
  cases o <;> rfl

namespace Engine

/-- The same engine under a limit. -/
def limited (k : Nat) (e : Engine) : Engine := { e with limit := some k }

def Turn.map (g : Engine → Engine) : Turn → Turn
  | idle e => idle (g e)
  | stopped cause e => stopped cause (g e)
  | ran e => ran (g e)

variable {k : Nat} {e e' : Engine} {c : Command} {p : Progress}

/-! ## One action -/

theorem act_of_lt (hk : p.executed < k) (c : Command) : p.act (some k) c = p.act none c := by
  simp only [Progress.act, Progress.charge, if_pos hk]

theorem act_of_ge (hk : k ≤ p.executed) (c : Command) :
    p.act (some k) c = .fault (.limitReached k) p := by
  simp only [Progress.act, Progress.charge, if_neg (Nat.not_lt.mpr hk)]

theorem executed_act (p : Progress) (c : Command) :
    (p.act none c).state.executed = p.executed + 1 := by
  simp only [Progress.act, Progress.charge]
  cases c.kind with
  | simple action => rw [Outcome.state_map]
  | loopOpen => rfl
  | loopClose => rfl

/-! ## One turn -/

theorem limit_turn (e : Engine) : e.turn.engine.limit = e.limit := by
  rcases ht : e.skeleton.take with ⟨_ | c, s⟩
  · rw [turn_idle ht]
    rfl
  · rw [turn_eq_act ht]
    cases e.progress.act e.limit c <;> rfl

theorem turn_limited_idle {s : Skeleton} (ht : e.skeleton.take = (none, s)) (k : Nat) :
    (e.limited k).turn = e.turn.map (limited k) := by
  rw [turn_idle ht, turn_idle (e := e.limited k) ht]
  rfl

theorem turn_limited_of_lt (hl : e.limit = none) (hk : e.executed < k) :
    (e.limited k).turn = e.turn.map (limited k) := by
  rcases ht : e.skeleton.take with ⟨_ | c, s⟩
  · exact turn_limited_idle ht k
  · have hact : (e.limited k).progress.act (e.limited k).limit c = e.progress.act none c :=
      act_of_lt (p := e.progress) hk c
    rw [turn_eq_act ht, turn_eq_act (e := e.limited k) ht, hl, hact]
    cases e.progress.act none c <;> rfl

/-- Where a limit changes the turn, it is reached, and what was due is taken only. -/
theorem turn_limited_or (hl : e.limit = none) (k : Nat) :
    (e.limited k).turn = e.turn.map (limited k) ∨
      (e.limited k).turn =
          .stopped (.limitReached k) (limited k { e with skeleton := e.skeleton.take.2 }) ∧
        k ≤ e.executed := by
  rcases Nat.lt_or_ge e.executed k with hlt | hge
  · exact .inl (turn_limited_of_lt hl hlt)
  · rcases ht : e.skeleton.take with ⟨_ | c, s⟩
    · exact .inl (turn_limited_idle ht k)
    · have hact : (e.limited k).progress.act (e.limited k).limit c = .fault (.limitReached k) _ :=
        act_of_ge (p := e.progress) hge c
      rw [turn_eq_act (e := e.limited k) ht, hact]
      exact .inr ⟨rfl, hge⟩

/-- A turn counts the action that it performs, also if that fails. -/
theorem executed_turn {s : Skeleton} (hl : e.limit = none) (ht : e.skeleton.take = (some c, s)) :
    e.turn.engine.executed = e.executed + 1 := by
  have hact := executed_act e.progress c
  rw [turn_eq_act ht, hl]
  generalize e.progress.act none c = o at hact
  cases o <;> exact hact

theorem executed_le_turn (hl : e.limit = none) : e.executed ≤ e.turn.engine.executed := by
  rcases ht : e.skeleton.take with ⟨_ | c, s⟩
  · rw [turn_idle ht]
    exact Nat.le_refl _
  · rw [executed_turn hl ht]
    exact Nat.le_succ _

/-- A limit that is not exceeded changes nothing. -/
theorem turn_limited (hl : e.limit = none) (hk : e.turn.engine.executed ≤ k) :
    (e.limited k).turn = e.turn.map (limited k) := by
  rcases ht : e.skeleton.take with ⟨_ | c, s⟩
  · exact turn_limited_idle ht k
  · rw [executed_turn hl ht] at hk
    exact turn_limited_of_lt hl hk

/-! ## Settling -/

/-- Without a limit the count only grows. -/
theorem kept_count (n : Nat) : Kept fun e => n ≤ e.executed ∧ e.limit = none where
  skeleton := fun _ _ h => h
  turn := fun e h => ⟨Nat.le_trans h.1 (executed_le_turn h.2), (limit_turn e).trans h.2⟩

theorem executed_le_settle {fuel : Nat} {o : Outcome Engine} (hl : e.limit = none)
    (h : e.settle fuel = some o) : e.executed ≤ o.state.executed ∧ o.state.limit = none :=
  settle_induction (kept_count e.executed).turn ⟨Nat.le_refl _, hl⟩ h

/-- An engine that settles without exceeding a limit settles so under this limit. -/
theorem settle_limited {fuel : Nat} {o : Outcome Engine} (hl : e.limit = none)
    (h : e.settle fuel = some o) (hk : o.state.executed ≤ k) :
    (e.limited k).settle fuel = some (o.map (limited k)) := by
  induction fuel generalizing e with
  | zero => cases h
  | succ fuel ih =>
      have hlimit := (limit_turn e).trans hl
      have hturn (hle : e.turn.engine.executed ≤ k) := turn_limited hl hle
      rw [settle] at h ⊢
      cases ht : e.turn with
      | idle e' =>
          rw [ht] at h hturn
          obtain rfl := Option.some.inj h
          rw [hturn hk]
          rfl
      | stopped cause e' =>
          rw [ht] at h hturn
          obtain rfl := Option.some.inj h
          rw [hturn hk]
          rfl
      | ran e' =>
          rw [ht] at h hturn hlimit
          have hle := (executed_le_settle hlimit h).1
          rw [hturn (Nat.le_trans hle hk)]
          exact ih hlimit h

/-- The limit stops an engine that has this property apart from the limit. -/
def StopsAt (k : Nat) (P : Engine → Prop) (o : Outcome Engine) : Prop :=
  ∃ m, o = .fault (.limitReached k) (m.limited k) ∧ P m ∧ k ≤ m.executed

theorem StopsAt.imp {P Q : Engine → Prop} {o : Outcome Engine} (h : StopsAt k P o)
    (hPQ : ∀ m, P m → Q m) : StopsAt k Q o := by
  obtain ⟨m, ho, hm, hk⟩ := h
  exact ⟨m, ho, hPQ m hm, hk⟩

/-- Under a limit an engine settles as without it, or stops where a turn begins. -/
theorem settle_limited_or {fuel : Nat} {o : Outcome Engine} (hl : e.limit = none)
    (h : (e.limited k).settle fuel = some o) :
    (∃ o', e.settle fuel = some o' ∧ o = o'.map (limited k)) ∨
      StopsAt k (fun m => ∃ e', Turns e e' ∧ m = { e' with skeleton := e'.skeleton.take.2 }) o := by
  induction fuel generalizing e with
  | zero => cases h
  | succ fuel ih =>
      have hlimit := (limit_turn e).trans hl
      rw [settle] at h ⊢
      rcases turn_limited_or hl k with hturn | ⟨hturn, hge⟩
      · rw [hturn] at h
        cases ht : e.turn with
        | idle e' =>
            rw [ht] at h
            obtain rfl := Option.some.inj h
            exact .inl ⟨_, rfl, rfl⟩
        | stopped cause e' =>
            rw [ht] at h
            obtain rfl := Option.some.inj h
            exact .inl ⟨_, rfl, rfl⟩
        | ran e' =>
            rw [ht] at h hlimit
            refine (ih hlimit h).imp_right fun hstops => hstops.imp fun m hm => ?_
            obtain ⟨e'', hturns, hm⟩ := hm
            exact ⟨e'', hturns.head ht, hm⟩
      · rw [hturn] at h
        exact .inr ⟨_, (Option.some.inj h).symm, ⟨e, .refl, rfl⟩, hge⟩

/-- A turn after which a limited engine goes on uses up one of the actions that are left. -/
theorem ran_limited (hl : e.limit = none) (h : (e.limited k).turn = .ran e') :
    e.executed < k ∧ ∃ e'' : Engine, e' = e''.limited k ∧ e''.limit = none ∧
      e''.executed = e.executed + 1 := by
  rcases ht : e.skeleton.take with ⟨_ | c, s⟩
  · rw [turn_idle (e := e.limited k) ht] at h
    cases h
  · rcases Nat.lt_or_ge e.executed k with hlt | hge
    · have hexecuted := executed_turn hl ht
      have hlimit := limit_turn e
      rw [turn_limited_of_lt hl hlt] at h
      cases hturn : e.turn with
      | idle e'' => rw [hturn] at h; cases h
      | stopped cause e'' => rw [hturn] at h; cases h
      | ran e'' =>
          rw [hturn] at h hexecuted hlimit
          exact ⟨hlt, e'', (Turn.ran.inj h).symm, hlimit.trans hl, hexecuted⟩
    · have hact : (e.limited k).progress.act (e.limited k).limit c = .fault (.limitReached k) _ :=
        act_of_ge (p := e.progress) hge c
      rw [turn_eq_act (e := e.limited k) ht, hact] at h
      cases h

theorem exists_settle_limited (hl : e.limit = none) (k : Nat) :
    ∃ o, Halts (settle · (e.limited k)) o := by
  induction hd : k - e.executed using Nat.strongRecOn generalizing e with
  | ind d ih =>
      cases ht : (e.limited k).turn with
      | idle e' => exact ⟨_, settle_of_idle ht⟩
      | stopped cause e' => exact ⟨_, settle_of_stopped ht⟩
      | ran e' =>
          obtain ⟨hlt, e'', rfl, hl', hexecuted⟩ := ran_limited hl ht
          obtain ⟨o, ho⟩ := ih (k - e''.executed) (by omega) hl' rfl
          exact ⟨o, ((continues_of_ran ht).halts_iff (steady_settle _) o).mpr ho⟩

/-! ## Stepping -/

theorem record_limited (c : Command) (e : Engine) (k : Nat) :
    (e.limited k).record c = (e.record c).map (limited k) := by
  obtain ⟨device, skeleton, limit, executed⟩ := e
  simp only [record, limited, Outcome.map_map]
  rfl

theorem record_limit (c : Command) (e : Engine) :
    (e.record c).state.limit = e.limit ∧ (e.record c).state.executed = e.executed := by
  obtain ⟨device, skeleton, limit, executed⟩ := e
  simp only [record, Outcome.state_map, and_self]

theorem executed_le_step {fuel : Nat} {o : Outcome Engine} (hl : e.limit = none)
    (h : e.step fuel c = some o) : e.executed ≤ o.state.executed ∧ o.state.limit = none :=
  (kept_count e.executed).step ⟨Nat.le_refl _, hl⟩ h

theorem step_limited {fuel : Nat} {o : Outcome Engine} (hl : e.limit = none)
    (h : e.step fuel c = some o) (hk : o.state.executed ≤ k) :
    (e.limited k).step fuel c = some (o.map (limited k)) := by
  have hlimit := (record_limit c e).1.trans hl
  rw [step] at h ⊢
  rw [record_limited]
  cases hr : e.record c with
  | fault cause e₁ =>
      rw [hr] at h
      exact congrArg (Option.map (Outcome.map (limited k))) h
  | ok e₁ =>
      rw [hr] at h hlimit
      dsimp only [Outcome.map] at h ⊢
      by_cases hs : e₁.skeleton.isScanning
      · rw [if_pos hs] at h
        obtain rfl := Option.some.inj h
        exact if_pos hs
      · rw [if_neg hs] at h
        exact (if_neg hs).trans (settle_limited hlimit h hk)

theorem step_limited_or {fuel : Nat} {o : Outcome Engine} (hl : e.limit = none)
    (h : (e.limited k).step fuel c = some o) :
    (∃ o', e.step fuel c = some o' ∧ o = o'.map (limited k)) ∨ StopsAt k (Moment c e) o := by
  have hlimit := (record_limit c e).1.trans hl
  rw [step] at h ⊢
  rw [record_limited] at h
  cases hr : e.record c with
  | fault cause e₁ =>
      rw [hr] at h
      exact .inl ⟨_, rfl, (Option.some.inj h).symm⟩
  | ok e₁ =>
      rw [hr] at h hlimit
      dsimp only [Outcome.map] at h ⊢
      by_cases hs : e₁.skeleton.isScanning
      · rw [if_pos hs]
        have hs' : (e₁.limited k).skeleton.isScanning := hs
        rw [if_pos hs'] at h
        exact .inl ⟨_, rfl, (Option.some.inj h).symm⟩
      · rw [if_neg hs]
        have hs' : ¬(e₁.limited k).skeleton.isScanning := hs
        have hscanned : e₁.skeleton.scanned = none := by
          simpa [Skeleton.isScanning] using hs
        rw [if_neg hs'] at h
        refine (settle_limited_or hlimit h).imp_right fun hstops => hstops.imp fun m hm => ?_
        obtain ⟨e', hturns, rfl⟩ := hm
        exact .taken ⟨e₁, hr, hscanned, hturns⟩

theorem exists_step_limited (hl : e.limit = none) (c : Command) (k : Nat) :
    ∃ o, Step c (e.limited k) o := by
  have hlimit := (record_limit c e).1.trans hl
  have hrecord := record_limited c e k
  cases hr : e.record c with
  | fault cause e₁ =>
      rw [hr] at hrecord
      exact ⟨_, 0, by simp only [step, hrecord, Outcome.map]; rfl⟩
  | ok e₁ =>
      rw [hr] at hrecord hlimit
      by_cases hs : e₁.skeleton.scanned = none
      · obtain ⟨o, ho⟩ := exists_settle_limited hlimit k
        exact ⟨o, (step_of_settle hrecord hs).mpr ho⟩
      · exact ⟨_, (step_of_scanning hrecord hs).mpr rfl⟩

/-! ## Whole scripts -/

variable {cs : List Command}

theorem executed_le_steps {fuel : Nat} {o : Outcome Engine} (hl : e.limit = none)
    (h : e.steps fuel cs = some o) : e.executed ≤ o.state.executed :=
  ((kept_count e.executed).steps ⟨Nat.le_refl _, hl⟩ h).1

theorem steps_limited {fuel : Nat} {o : Outcome Engine} (hl : e.limit = none)
    (h : e.steps fuel cs = some o) (hk : o.state.executed ≤ k) :
    (e.limited k).steps fuel cs = some (o.map (limited k)) := by
  induction cs generalizing e with
  | nil => exact congrArg (Option.map (Outcome.map (limited k))) h
  | cons c cs ih =>
      rw [steps_cons_eq, chain_eq_some] at h ⊢
      cases h with
      | fault h => exact .fault (step_limited hl h hk)
      | @ok e₁ _ h hnext =>
          have hlimit := (executed_le_step hl h).2
          have hle := executed_le_steps hlimit hnext
          exact .ok (step_limited hl h (Nat.le_trans hle hk)) (ih hlimit hnext)

theorem steps_limited_or {fuel : Nat} {o : Outcome Engine} (hl : e.limit = none)
    (h : (e.limited k).steps fuel cs = some o) :
    (∃ o', e.steps fuel cs = some o' ∧ o = o'.map (limited k)) ∨ StopsAt k (Passes cs e) o := by
  induction cs generalizing e with
  | nil => exact .inl ⟨_, rfl, (Option.some.inj h).symm⟩
  | cons c cs ih =>
      rw [steps_cons_eq, chain_eq_some] at h
      cases h with
      | fault h =>
          rcases step_limited_or hl h with ⟨o', ho', heq⟩ | hstops
          · cases o' with
            | ok e₁ => cases heq
            | fault cause e₁ =>
                exact .inl ⟨_, by rw [steps_cons_eq, ho']; rfl, heq⟩
          · exact .inr (hstops.imp fun m => .here)
      | ok h hnext =>
          rcases step_limited_or hl h with ⟨o', ho', heq⟩ | ⟨m, heq, -⟩
          · cases o' with
            | fault cause e₁ => cases heq
            | ok e₁ =>
                have hlimit := (executed_le_step hl ho').2
                obtain rfl := Outcome.ok.inj heq
                rw [steps_cons_eq, ho']
                exact (ih hlimit hnext).imp_right fun hstops => hstops.imp fun m => .later ho'
          · cases heq

/-- Under a limit every script ends. -/
theorem exists_steps_limited (hl : e.limit = none) (cs : List Command) (k : Nat) :
    ∃ o, Steps cs (e.limited k) o := by
  induction cs generalizing e with
  | nil => exact ⟨_, steps_nil.mpr rfl⟩
  | cons c cs ih =>
      obtain ⟨o, hstep⟩ := exists_step_limited hl c k
      cases o with
      | fault cause e₁ => exact ⟨_, steps_cons.mpr (.fault hstep)⟩
      | ok e₁ =>
          obtain ⟨fuel, hfuel⟩ := hstep
          rcases step_limited_or hl hfuel with ⟨o', ho', heq⟩ | ⟨m, heq, -⟩
          · cases o' with
            | fault cause e₂ => cases heq
            | ok e₂ =>
                have hlimit := (executed_le_step hl ho').2
                obtain rfl := Outcome.ok.inj heq
                obtain ⟨o, ho⟩ := ih hlimit
                exact ⟨o, steps_cons.mpr (.ok ⟨fuel, hfuel⟩ ho)⟩
          · cases heq

end Engine

end TapeScript
