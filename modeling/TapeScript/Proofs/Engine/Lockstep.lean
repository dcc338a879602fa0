import TapeScript.Proofs.Engine.Faults

/-! # Engines in lockstep

Two engines that differ in their devices alone take the same turns, as long as no action tells
the devices apart. -/

namespace TapeScript.Engine

open Outcome

/-- Related devices show the same current cell, and an action leaves them related or parts
them. -/
structure Tracks (P : Command → Prop) (R : Device → Device → Prop)
    (Apart : Outcome Device → Outcome Device → Prop) : Prop where
  current : ∀ ⦃d d'⦄, R d d' → d.tape.current = d'.tape.current
  run : ∀ ⦃c action d d'⦄, P c → c.kind = .simple action → R d d' →
    Rel R R (action.run d) (action.run d') ∨ Apart (action.run d) (action.run d')

/-- The devices are related, and all else is the same. -/
def Alike (R : Device → Device → Prop) (e e' : Engine) : Prop :=
  ∃ device, R e.device device ∧ e' = { e with device }

/-- The same kind of turn, to engines that are alike. -/
inductive TurnsAlike (R : Device → Device → Prop) : Turn → Turn → Prop where
  | idle {e e' : Engine} (h : Alike R e e') : TurnsAlike R (.idle e) (.idle e')
  | stopped {cause : Fault} {e e' : Engine} (h : Alike R e e') :
      TurnsAlike R (.stopped cause e) (.stopped cause e')
  | ran {e e' : Engine} (h : Alike R e e') : TurnsAlike R (.ran e) (.ran e')

/-- The engines are alike, but the action that is due tells their devices apart. -/
inductive Parts (R : Device → Device → Prop) (Apart : Outcome Device → Outcome Device → Prop)
    (e e' : Engine) : Prop where
  | intro {c : Command} {action : Action} {s : Skeleton} (halike : Alike R e e')
      (ht : e.skeleton.take = (some c, s)) (hx : exhausted? e.limit e.executed = none)
      (hk : c.kind = .simple action) (h : Apart (action.run e.device) (action.run e'.device))

/-- The engines come to a point at which they part. -/
def Splits (Reach : Engine → Engine → Prop) (R : Device → Device → Prop)
    (Apart : Outcome Device → Outcome Device → Prop) (e e' : Engine) : Prop :=
  ∃ m m', Reach e m ∧ Reach e' m' ∧ Parts R Apart m m'

/-- Both engines end alike, or neither of them ends. -/
abbrev EndAlike (R : Device → Device → Prop) :
    Option (Outcome Engine) → Option (Outcome Engine) → Prop :=
  Option.Rel (Rel (Alike R) (Alike R))

variable {P : Command → Prop} {R : Device → Device → Prop}
  {Apart : Outcome Device → Outcome Device → Prop} {Q : Engine → Prop}
  {c : Command} {cs : List Command} {e e' m : Engine} {fuel : Nat}

theorem Alike.device (h : Alike R e e') : R e.device e'.device := by
  obtain ⟨device, hR, rfl⟩ := h
  exact hR

theorem Alike.skeleton_eq (h : Alike R e e') : e'.skeleton = e.skeleton := by
  obtain ⟨device, -, rfl⟩ := h
  rfl

theorem TurnsAlike.engine {t t' : Turn} (h : TurnsAlike R t t') : Alike R t.engine t'.engine := by
  cases h with
  | idle h => exact h
  | stopped h => exact h
  | ran h => exact h

/-! ## One turn -/

theorem turn_alike (hT : Tracks P R Apart) (hP : e.skeleton.Holds P) (h : Alike R e e') :
    TurnsAlike R e.turn e'.turn ∨ Parts R Apart e e' := by
  obtain ⟨d', hR, rfl⟩ := h
  rcases htake : e.skeleton.take with ⟨_ | c, s⟩
  · rw [turn_idle htake, turn_idle (e := { e with device := d' }) htake]
    exact .inl (.idle ⟨d', hR, rfl⟩)
  · cases hx : exhausted? e.limit e.executed with
    | some k =>
        rw [turn_exhausted htake hx, turn_exhausted (e := { e with device := d' }) htake hx]
        exact .inl (.stopped ⟨d', hR, rfl⟩)
    | none =>
        cases hk : c.kind with
        | simple action =>
            obtain ⟨-, id, -, -, hc, -⟩ := Skeleton.take_eq_some htake
            rcases hT.run (hP hc) hk hR with hrun | hapart
            · rw [turn_simple htake hx hk, turn_simple (e := { e with device := d' }) htake hx hk]
              dsimp only
              generalize action.run e.device = o, action.run d' = o' at hrun
              cases hrun with
              | ok hR' => exact .inl (.ran ⟨_, hR', rfl⟩)
              | fault hR' => exact .inl (.stopped ⟨_, hR', rfl⟩)
            · exact .inr (.intro ⟨d', hR, rfl⟩ htake hx hk hapart)
        | loopOpen =>
            rw [turn_loopOpen htake hx hk, turn_loopOpen (e := { e with device := d' }) htake hx hk,
              hT.current hR]
            exact .inl (.ran ⟨d', hR, rfl⟩)
        | loopClose =>
            rw [turn_loopClose htake hx hk,
              turn_loopClose (e := { e with device := d' }) htake hx hk]
            exact .inl (.ran ⟨d', hR, rfl⟩)

theorem holds_turn (h : e.skeleton.Holds P) : e.turn.engine.skeleton.Holds P :=
  h.of_sameShape (sameShape_turn e)

theorem Turns.holds (h : Turns e m) (hP : e.skeleton.Holds P) : m.skeleton.Holds P := by
  induction h with
  | refl => exact hP
  | tail _ ht ih =>
      have hturn := holds_turn ih
      rwa [ht] at hturn

/-! ## Settling -/

theorem settle_alike (hT : Tracks P R Apart) (hP : e.skeleton.Holds P) (h : Alike R e e')
    (fuel : Nat) :
    EndAlike R (e.settle fuel) (e'.settle fuel) ∨ Splits Turns R Apart e e' := by
  induction fuel generalizing e e' with
  | zero => exact .inl .none
  | succ fuel ih =>
      rcases turn_alike hT hP h with hturn | hparts
      · have hP' := holds_turn hP
        rw [settle, settle]
        generalize ht : e.turn = t at hturn hP'
        generalize ht' : e'.turn = t' at hturn
        cases hturn with
        | idle halike => exact .inl (.some (.ok halike))
        | stopped halike => exact .inl (.some (.fault halike))
        | ran halike =>
            refine (ih hP' halike).imp_right ?_
            rintro ⟨m, m', hm, hm', hparts⟩
            exact ⟨m, m', hm.head ht, hm'.head ht', hparts⟩
      · exact .inr ⟨e, e', .refl, .refl, hparts⟩

/-! ## Stepping -/

theorem record_alike (h : Alike R e e') (c : Command) :
    Rel (Alike R) (Alike R) (e.record c) (e'.record c) := by
  obtain ⟨device, hR, rfl⟩ := h
  simp only [record]
  cases e.skeleton.record c with
  | ok s => exact .ok ⟨device, hR, rfl⟩
  | fault cause s => exact .fault ⟨device, hR, rfl⟩

theorem holds_of_record_eq_ok (hP : e.skeleton.Holds P) (hc : P c) (h : e.record c = .ok e') :
    e'.skeleton.Holds P := by
  have hrecord := hP.record hc
  rwa [← skeleton_record, h] at hrecord

theorem step_alike (hT : Tracks P R Apart) (hP : e.skeleton.Holds P) (hc : P c)
    (h : Alike R e e') (fuel : Nat) :
    EndAlike R (e.step fuel c) (e'.step fuel c) ∨ Splits (AtTurn c) R Apart e e' := by
  have hrecord := record_alike h c
  rw [step, step]
  cases hr : e.record c with
  | fault cause e₁ =>
      rw [hr] at hrecord
      generalize e'.record c = o' at hrecord
      cases hrecord with
      | fault halike => exact .inl (.some (.fault halike))
  | ok e₁ =>
      rw [hr] at hrecord
      cases hr' : e'.record c with
      | fault cause e₁' => rw [hr'] at hrecord; cases hrecord
      | ok e₁' =>
          rw [hr'] at hrecord
          cases hrecord with
          | ok halike =>
              have hskeleton := halike.skeleton_eq
              dsimp only
              rw [hskeleton]
              by_cases hs : e₁.skeleton.isScanning = true
              · rw [if_pos hs, if_pos hs]
                exact .inl (.some (.ok halike))
              · rw [if_neg hs, if_neg hs]
                have hscanned : e₁.skeleton.scanned = none := by
                  simpa [Skeleton.isScanning] using hs
                have hP₁ := holds_of_record_eq_ok hP hc hr
                refine (settle_alike hT hP₁ halike fuel).imp_right ?_
                rintro ⟨m, m', hm, hm', hparts⟩
                exact ⟨m, m', ⟨e₁, hr, hscanned, hm⟩, ⟨e₁', hr', hskeleton ▸ hscanned, hm'⟩,
                  hparts⟩

theorem steps_alike (hT : Tracks P R Apart) (hP : e.skeleton.Holds P) (hcs : ∀ c ∈ cs, P c)
    (h : Alike R e e') (fuel : Nat) :
    EndAlike R (e.steps fuel cs) (e'.steps fuel cs) ∨ Splits (TurnsIn cs) R Apart e e' := by
  induction cs generalizing e e' with
  | nil => exact .inl (.some (.ok h))
  | cons c cs ih =>
      have hhead := hcs c List.mem_cons_self
      have htail : ∀ d ∈ cs, P d := fun d hd => hcs d (List.mem_cons_of_mem c hd)
      rw [steps_cons_eq, steps_cons_eq]
      rcases step_alike hT hP hhead h fuel with hstep | ⟨m, m', hm, hm', hparts⟩
      · generalize he : e.step fuel c = o at hstep
        generalize he' : e'.step fuel c = o' at hstep
        cases hstep with
        | none => exact .inl .none
        | some hstep =>
            cases hstep with
            | fault halike => exact .inl (.some (.fault halike))
            | ok halike =>
                refine (ih (holds_step hP hhead he) htail halike).imp_right ?_
                rintro ⟨m, m', hm, hm', hparts⟩
                exact ⟨m, m', .later he hm, .later he' hm', hparts⟩
      · exact .inr ⟨m, m', .here hm, .here hm', hparts⟩

/-! ## What one engine passes through -/

section Pass

variable (hT : Tracks P R Apart) (hQ : Kept Q)
include hT hQ

/-- Up to the point where the engines part each has its counterpart. -/
theorem Turns.alike_or (hP : e.skeleton.Holds P) (h : Alike R e e')
    (hparts : ∀ m m', Turns e m → Turns e' m' → Parts R Apart m m' → Q m.turn.engine)
    (hm : Turns e m) : (∃ m', Turns e' m' ∧ Alike R m m') ∨ Q m := by
  induction hm with
  | refl => exact .inl ⟨e', .refl, h⟩
  | tail hbefore ht ih =>
      rcases ih with ⟨m', hm', halike⟩ | hq
      · rcases turn_alike hT (Turns.holds hbefore hP) halike with hturn | hpart
        · rw [ht] at hturn
          generalize ht' : m'.turn = t' at hturn
          cases hturn with
          | ran halike => exact .inl ⟨_, hm'.tail ht', halike⟩
        · have hq := hparts _ m' hbefore hm' hpart
          rw [ht] at hq
          exact .inr hq
      · have hq' := hQ.turn _ hq
        rw [ht] at hq'
        exact .inr hq'

theorem AtTurn.alike_or (hP : e.skeleton.Holds P) (hc : P c) (h : Alike R e e')
    (hparts : ∀ m m', AtTurn c e m → AtTurn c e' m' → Parts R Apart m m' → Q m.turn.engine)
    (hm : AtTurn c e m) : (∃ m', AtTurn c e' m' ∧ Alike R m m') ∨ Q m := by
  obtain ⟨e₁, hr, hs, hturns⟩ := hm
  have hrecord := record_alike h c
  rw [hr] at hrecord
  generalize hr' : e'.record c = o' at hrecord
  cases hrecord with
  | @ok _ e₁' halike =>
      have hs' : e₁'.skeleton.scanned = none := halike.skeleton_eq ▸ hs
      have hP₁ := holds_of_record_eq_ok hP hc hr
      refine (hturns.alike_or hT hQ hP₁ halike fun m m' hm hm' => ?_).imp_left ?_
      · exact hparts m m' ⟨e₁, hr, hs, hm⟩ ⟨e₁', hr', hs', hm'⟩
      · rintro ⟨m', hm', halike'⟩
        exact ⟨m', ⟨e₁', hr', hs', hm'⟩, halike'⟩

theorem Moment.alike_or (hP : e.skeleton.Holds P) (hc : P c) (h : Alike R e e')
    (hparts : ∀ m m', AtTurn c e m → AtTurn c e' m' → Parts R Apart m m' → Q m.turn.engine)
    (hm : Moment c e m) : (∃ d', R m.device d') ∨ Q m := by
  cases hm with
  | begun => exact .inl ⟨_, h.device⟩
  | appended => exact .inl ⟨_, h.device⟩
  | recorded =>
      rw [state_record]
      exact .inl ⟨_, h.device⟩
  | @taken m hm =>
      rcases hm.alike_or hT hQ hP hc h hparts with ⟨m', -, halike⟩ | hq
      · exact .inl ⟨_, halike.device⟩
      · exact .inr (hQ.skeleton m _ hq)
  | @turned m hm =>
      rcases hm.alike_or hT hQ hP hc h hparts with ⟨m', hm', halike⟩ | hq
      · rcases turn_alike hT (hm.holds hP hc) halike with hturn | hpart
        · exact .inl ⟨_, hturn.engine.device⟩
        · exact .inr (hparts m m' hm hm' hpart)
      · exact .inr (hQ.turn m hq)

theorem Passes.alike_or (hP : e.skeleton.Holds P) (hcs : ∀ c ∈ cs, P c) (h : Alike R e e')
    (hparts : ∀ m m', TurnsIn cs e m → TurnsIn cs e' m' → Parts R Apart m m' → Q m.turn.engine)
    (hm : Passes cs e m) : (∃ d', R m.device d') ∨ Q m := by
  induction hm generalizing e' with
  | here hm =>
      exact hm.alike_or hT hQ hP (hcs _ List.mem_cons_self) h
        fun m m' hm hm' => hparts m m' (.here hm) (.here hm')
  | @later fuel c cs e e₁ m hstep hm ih =>
      have hhead := hcs c List.mem_cons_self
      have htail : ∀ d ∈ cs, P d := fun d hd => hcs d (List.mem_cons_of_mem c hd)
      rcases step_alike hT hP hhead h fuel with hends | ⟨m₀, m₀', hm₀, hm₀', hpart⟩
      · rw [hstep] at hends
        generalize hstep' : e'.step fuel c = o' at hends
        cases hends with
        | some hends =>
            cases hends with
            | ok halike =>
                exact ih (holds_step hP hhead hstep) htail halike fun m m' hm hm' =>
                  hparts m m' (.later hstep hm) (.later hstep' hm')
      · have hq := hparts m₀ m₀' (.here hm₀) (.here hm₀') hpart
        have hq₁ := hQ.of_turned hq (hm₀.step_iff.mp ⟨fuel, hstep⟩)
        exact .inr (hQ.passes hq₁ hm)

end Pass

end TapeScript.Engine
