import TapeScript.Engine
import TapeScript.Proofs.Skeleton.Consistency

/-! # Stepping an engine

Stepping may go on after a fault. Whatever the commands and their results, the skeleton
stays consistent: executing moves cursors only, and recording keeps the chains. -/

namespace TapeScript.Engine

/-- The engine that a turn leaves behind. -/
def Turn.engine : Turn → Engine
  | idle engine => engine
  | stopped _ engine => engine
  | ran engine => engine

/-- The engine after some commands, the steps of which ended with or without a fault. -/
inductive Stepped (fresh : Engine) : List Command → Engine → Prop where
  | fresh : Stepped fresh [] fresh
  | step {commands : List Command} {engine : Engine} {fuel : Nat} {command : Command}
      {outcome : Outcome Engine} (before : Stepped fresh commands engine)
      (ended : engine.step fuel command = some outcome) :
      Stepped fresh (commands ++ [command]) outcome.state

/-! ## The ways in which a turn can go -/

section Turn

variable {e : Engine} {c : Command} {s : Skeleton}

theorem turn_idle (h : e.skeleton.take = (none, s)) : e.turn = .idle { e with skeleton := s } := by
  simp only [turn, h]

theorem turn_exhausted {k : Nat} (h : e.skeleton.take = (some c, s))
    (hx : exhausted? e.limit e.executed = some k) :
    e.turn = .stopped (.limitReached k) { e with skeleton := s } := by
  simp only [turn, h, hx]

theorem turn_simple {action : Action} (h : e.skeleton.take = (some c, s))
    (hx : exhausted? e.limit e.executed = none) (hk : c.kind = .simple action) :
    e.turn =
      match action.run e.device with
      | .ok device => .ran { e with device, skeleton := s, executed := e.executed + 1 }
      | .fault cause device =>
          .stopped cause { e with device, skeleton := s, executed := e.executed + 1 } := by
  cases hrun : action.run e.device <;> simp only [turn, h, hx, hk, hrun]

theorem device_turn_of_simple {action : Action} (h : e.skeleton.take = (some c, s))
    (hx : exhausted? e.limit e.executed = none) (hk : c.kind = .simple action) :
    e.turn.engine.device = (action.run e.device).state := by
  rw [turn_simple h hx hk]
  cases action.run e.device <;> rfl

theorem turn_loopOpen (h : e.skeleton.take = (some c, s))
    (hx : exhausted? e.limit e.executed = none) (hk : c.kind = .loopOpen) :
    e.turn = .ran
      { e with
        skeleton := if e.device.tape.current = 0 then s.leaveLoop else s
        executed := e.executed + 1 } := by
  simp only [turn, h, hx, hk]

theorem turn_loopClose (h : e.skeleton.take = (some c, s))
    (hx : exhausted? e.limit e.executed = none) (hk : c.kind = .loopClose) :
    e.turn = .ran { e with skeleton := s.repeatLoop, executed := e.executed + 1 } := by
  simp only [turn, h, hx, hk]

end Turn

/-- A turn takes the command that is due, and then may leave a loop or repeat it. -/
theorem skeleton_turn (e : Engine) :
    e.turn.engine.skeleton = e.skeleton.take.2 ∨
      e.turn.engine.skeleton = e.skeleton.take.2.leaveLoop ∨
      e.turn.engine.skeleton = e.skeleton.take.2.repeatLoop := by
  rcases ht : e.skeleton.take with ⟨_ | c, s⟩
  · exact .inl (by rw [turn_idle ht]; rfl)
  · cases hx : exhausted? e.limit e.executed with
    | some k => exact .inl (by rw [turn_exhausted ht hx]; rfl)
    | none =>
        cases hk : c.kind with
        | simple action =>
            rw [turn_simple ht hx hk]
            split <;> exact .inl rfl
        | loopOpen =>
            rw [turn_loopOpen ht hx hk]
            by_cases hz : e.device.tape.current = 0
            · exact .inr (.inl (if_pos hz))
            · exact .inl (if_neg hz)
        | loopClose =>
            rw [turn_loopClose ht hx hk]
            exact .inr (.inr rfl)

theorem sameShape_turn (e : Engine) : e.turn.engine.skeleton.SameShape e.skeleton := by
  have ht := Skeleton.sameShape_take e.skeleton
  rcases skeleton_turn e with h | h | h <;> rw [h]
  · exact ht
  · exact (Skeleton.sameShape_leaveLoop _).trans ht
  · exact (Skeleton.sameShape_repeatLoop _).trans ht

theorem placed_turn {e : Engine} (hp : e.skeleton.Placed) (ht : e.skeleton.Threaded) :
    e.turn.engine.skeleton.Placed := by
  have htake := hp.take ht
  rcases skeleton_turn e with h | h | h <;> rw [h]
  · exact htake
  · exact htake.leaveLoop (ht.of_sameShape (Skeleton.sameShape_take _))
  · exact htake.repeatLoop

/-- What every turn keeps is kept until the engine stops. -/
theorem settle_induction {P : Engine → Prop} (hturn : ∀ e, P e → P e.turn.engine) :
    ∀ {fuel : Nat} {e : Engine} {o : Outcome Engine}, P e → e.settle fuel = some o → P o.state := by
  intro fuel
  induction fuel with
  | zero =>
      intro e o _ hs
      cases hs
  | succ fuel ih =>
      intro e o he hs
      have hnext := hturn e he
      simp only [settle] at hs
      split at hs <;> rename_i hcase <;> rw [hcase] at hnext
      · obtain rfl := Option.some.inj hs
        exact hnext
      · obtain rfl := Option.some.inj hs
        exact hnext
      · exact ih hnext hs

/-! ## What a step does to the skeleton -/

theorem skeleton_record (c : Command) (e : Engine) :
    (e.record c).state.skeleton = (e.skeleton.record c).state := by
  obtain ⟨device, skeleton, limit, executed⟩ := e
  simp only [record, Outcome.state_map]

/-- What recording sets up and every turn keeps holds after the step. -/
theorem step_induction {P : Engine → Prop} (hturn : ∀ e, P e → P e.turn.engine) {fuel : Nat}
    {c : Command} {e : Engine} {o : Outcome Engine} (he : P (e.record c).state)
    (hs : e.step fuel c = some o) : P o.state := by
  simp only [step] at hs
  split at hs <;> rename_i hcase <;> rw [hcase] at he
  · obtain rfl := Option.some.inj hs
    exact he
  · split at hs
    · obtain rfl := Option.some.inj hs
      exact he
    · exact settle_induction hturn he hs

/-- A step changes what is recorded by recording its command, and in no other way. -/
theorem sameShape_step {fuel : Nat} {c : Command} {e : Engine} {o : Outcome Engine}
    (h : e.step fuel c = some o) : o.state.skeleton.SameShape (e.skeleton.record c).state := by
  refine step_induction (P := fun e' => e'.skeleton.SameShape (e.skeleton.record c).state) ?_ ?_ h
  · exact fun e' he' => (sameShape_turn e').trans he'
  · rw [skeleton_record]
    exact .refl _

theorem linked_placed_step {fuel : Nat} {c : Command} {e : Engine} {o : Outcome Engine}
    (hl : e.skeleton.Linked) (hp : e.skeleton.Placed) (hs : e.step fuel c = some o) :
    o.state.skeleton.Linked ∧ o.state.skeleton.Placed := by
  refine step_induction (P := fun e => e.skeleton.Linked ∧ e.skeleton.Placed) ?_ ?_ hs
  · rintro e ⟨hl, hp⟩
    exact ⟨hl.of_sameShape (sameShape_turn e), placed_turn hp hl.toThreaded⟩
  · rw [skeleton_record]
    exact ⟨hl.record c, hp.record c⟩

theorem Stepped.linked_placed {device : Device} {limit : Option Nat} {commands : List Command}
    {e : Engine} (h : Stepped { device, limit } commands e) :
    e.skeleton.Linked ∧ e.skeleton.Placed := by
  induction h with
  | fresh => exact ⟨.empty, .empty⟩
  | step _ hs ih => exact linked_placed_step ih.1 ih.2 hs

/-- After every step of a fresh engine the skeleton is consistent. -/
theorem consistent_of_stepped {device : Device} {limit : Option Nat} {commands : List Command}
    {e : Engine} (h : Stepped { device, limit } commands e) : e.skeleton.Consistent :=
  h.linked_placed.1.consistent h.linked_placed.2

/-- Going on after a close without a loop, with a loop that is left at once. -/
theorem consistent_of_stepped_unmatched :
    ∃ e, Stepped { device := ⟨.blank 1 Nat.one_pos, .ofBytes [], {}⟩ }
        [⟨']'.toUInt8, .loopClose⟩, ⟨'['.toUInt8, .loopOpen⟩, ⟨']'.toUInt8, .loopClose⟩] e ∧
      e.skeleton.Consistent := by
  have hfresh : Stepped { device := ⟨.blank 1 Nat.one_pos, .ofBytes [], {}⟩ } [] _ := .fresh
  have hclose := @Stepped.step _ _ _ 2 ⟨']'.toUInt8, .loopClose⟩ _ hfresh rfl
  have hopen := @Stepped.step _ _ _ 2 ⟨'['.toUInt8, .loopOpen⟩ _ hclose rfl
  have hagain := @Stepped.step _ _ _ 2 ⟨']'.toUInt8, .loopClose⟩ _ hopen rfl
  exact ⟨_, hagain, consistent_of_stepped hagain⟩

end TapeScript.Engine
