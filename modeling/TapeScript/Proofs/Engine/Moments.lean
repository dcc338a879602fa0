import TapeScript.Proofs.Engine.Stepping

/-! # The moments of a step

A step records its command and then takes turns. Its moments are the engines that appear on
the way: while the command is being recorded, behind the recording, when a due command was
taken, and behind every turn. -/

namespace TapeScript.Engine

variable {c : Command} {e e' : Engine}

/-- Turns that ran lead from one engine to the other. -/
def Turns : Engine → Engine → Prop := Relation.ReflTransGen fun e e' => e.turn = .ran e'

/-- In the step of this command from `e` on, a turn begins at `e'`. -/
def AtTurn (c : Command) (e e' : Engine) : Prop :=
  ∃ e₁, e.record c = .ok e₁ ∧ e₁.skeleton.scanned = none ∧ Turns e₁ e'

inductive Moment (c : Command) (e : Engine) : Engine → Prop where
  | begun (hk : c.kind = .loopOpen) : Moment c e { e with skeleton := e.skeleton.beginLoop }
  | appended (hk : c.kind = .loopClose) : Moment c e { e with skeleton := e.skeleton.push c }
  | recorded : Moment c e (e.record c).state
  | taken {e' : Engine} (h : AtTurn c e e') :
      Moment c e { e' with skeleton := e'.skeleton.take.2 }
  | turned {e' : Engine} (h : AtTurn c e e') : Moment c e e'.turn.engine

/-- What recording sets up and every turn that ran keeps holds whenever a turn begins. -/
theorem AtTurn.induction {P : Engine → Prop} (h : AtTurn c e e')
    (hrecord : ∀ e₁, e.record c = .ok e₁ → e₁.skeleton.scanned = none → P e₁)
    (hturn : ∀ e₁ e₂, P e₁ → e₁.turn = .ran e₂ → P e₂) : P e' := by
  obtain ⟨e₁, hr, hscanned, hturns⟩ := h
  induction hturns with
  | refl => exact hrecord e₁ hr hscanned
  | tail _ ht ih => exact hturn _ _ ih ht

/-! ## The ways in which a step can end -/

inductive SettleEnds (e : Engine) : Outcome Engine → Prop where
  | idle {e' e'' : Engine} (h : Turns e e') (ht : e'.turn = .idle e'') : SettleEnds e (.ok e'')
  | stopped {cause : Fault} {e' e'' : Engine} (h : Turns e e')
      (ht : e'.turn = .stopped cause e'') : SettleEnds e (.fault cause e'')

theorem settleEnds {fuel : Nat} {o : Outcome Engine} (h : e.settle fuel = some o) :
    SettleEnds e o := by
  induction fuel generalizing e with
  | zero => cases h
  | succ fuel ih =>
      rw [settle] at h
      cases ht : e.turn with
      | idle e' =>
          rw [ht] at h
          obtain rfl := Option.some.inj h
          exact .idle .refl ht
      | stopped cause e' =>
          rw [ht] at h
          obtain rfl := Option.some.inj h
          exact .stopped .refl ht
      | ran e' =>
          rw [ht] at h
          cases ih h with
          | idle hturns hlast => exact .idle (hturns.head ht) hlast
          | stopped hturns hlast => exact .stopped (hturns.head ht) hlast

/-- A step ends when the command is not recorded well, when a loop is being scanned, when
nothing is due any more, or when a turn is stopped. -/
inductive StepEnds (c : Command) (e : Engine) : Outcome Engine → Prop where
  | refused {cause : Fault} {e' : Engine} (h : e.record c = .fault cause e') :
      StepEnds c e (.fault cause e')
  | scanning {e' : Engine} (h : e.record c = .ok e') (hs : e'.skeleton.scanned ≠ none) :
      StepEnds c e (.ok e')
  | idle {e' e'' : Engine} (h : AtTurn c e e') (ht : e'.turn = .idle e'') :
      StepEnds c e (.ok e'')
  | stopped {cause : Fault} {e' e'' : Engine} (h : AtTurn c e e')
      (ht : e'.turn = .stopped cause e'') : StepEnds c e (.fault cause e'')

theorem stepEnds {fuel : Nat} {o : Outcome Engine} (h : e.step fuel c = some o) :
    StepEnds c e o := by
  rw [step] at h
  cases hr : e.record c with
  | fault cause e₁ =>
      rw [hr] at h
      obtain rfl := Option.some.inj h
      exact .refused hr
  | ok e₁ =>
      rw [hr] at h
      dsimp only at h
      by_cases hs : e₁.skeleton.scanned = none
      · have hscan : e₁.skeleton.isScanning = false := by
          rw [Skeleton.isScanning, hs, Option.isSome_none]
        rw [hscan] at h
        cases settleEnds h with
        | idle hturns ht => exact .idle ⟨e₁, hr, hs, hturns⟩ ht
        | stopped hturns ht => exact .stopped ⟨e₁, hr, hs, hturns⟩ ht
      · have hscan : e₁.skeleton.isScanning = true := Option.isSome_iff_ne_none.mpr hs
        rw [hscan] at h
        obtain rfl := Option.some.inj h
        exact .scanning hr hs

/-- The engine that a step leaves behind is the last moment of the step. -/
theorem StepEnds.moment {o : Outcome Engine} (h : StepEnds c e o) : Moment c e o.state := by
  cases h with
  | refused h => exact congrArg Outcome.state h ▸ .recorded
  | scanning h _ => exact congrArg Outcome.state h ▸ .recorded
  | idle h ht =>
      have hturned := Moment.turned h
      rwa [ht] at hturned
  | stopped h ht =>
      have hturned := Moment.turned h
      rwa [ht] at hturned

/-! ## Stepping up to the first fault -/

/-- The engine appears in a step while commands are stepped through. -/
inductive Passes : List Command → Engine → Engine → Prop where
  | here {c : Command} {commands : List Command} {e m : Engine} (h : Moment c e m) :
      Passes (c :: commands) e m
  | later {fuel : Nat} {c : Command} {commands : List Command} {e e' m : Engine}
      (hstep : e.step fuel c = some (.ok e')) (h : Passes commands e' m) :
      Passes (c :: commands) e m

/-- While commands are stepped through, a turn begins at this engine. -/
inductive TurnsIn : List Command → Engine → Engine → Prop where
  | here {c : Command} {commands : List Command} {e m : Engine} (h : AtTurn c e m) :
      TurnsIn (c :: commands) e m
  | later {fuel : Nat} {c : Command} {commands : List Command} {e e' m : Engine}
      (hstep : e.step fuel c = some (.ok e')) (h : TurnsIn commands e' m) :
      TurnsIn (c :: commands) e m

/-! ## What all moments share -/

/-- A property that neither a turn nor a change of the skeleton takes away. -/
structure Kept (P : Engine → Prop) : Prop where
  skeleton : ∀ e s, P e → P { e with skeleton := s }
  turn : ∀ e, P e → P e.turn.engine

theorem state_record (c : Command) (e : Engine) :
    (e.record c).state = { e with skeleton := (e.skeleton.record c).state } := by
  obtain ⟨device, skeleton, limit, executed⟩ := e
  simp only [record, Outcome.state_map]

namespace Kept

variable {P : Engine → Prop} {commands : List Command} {m : Engine} {o : Outcome Engine}
  {fuel : Nat}

theorem record (hP : Kept P) (he : P e) (c : Command) : P (e.record c).state := by
  rw [state_record]
  exact hP.skeleton e _ he

theorem step (hP : Kept P) (he : P e) (h : e.step fuel c = some o) : P o.state :=
  step_induction hP.turn (hP.record he c) h

theorem steps (hP : Kept P) (he : P e) (h : e.steps fuel commands = some o) : P o.state := by
  induction commands generalizing e with
  | nil =>
      obtain rfl := Option.some.inj h
      exact he
  | cons c commands ih =>
      rw [Engine.steps] at h
      split at h
      · rename_i hstep
        exact ih (hP.step he hstep) h
      · exact hP.step he h

theorem turns (hP : Kept P) (he : P e) (h : Turns e e') : P e' := by
  induction h with
  | refl => exact he
  | tail _ ht ih =>
      have hturned := hP.turn _ ih
      rwa [ht] at hturned

theorem atTurn (hP : Kept P) (he : P e) (h : AtTurn c e e') : P e' := by
  obtain ⟨e₁, hrecord, -, hturns⟩ := h
  have hstate := hP.record he c
  rw [hrecord] at hstate
  exact hP.turns hstate hturns

theorem moment (hP : Kept P) (he : P e) (h : Moment c e m) : P m := by
  cases h with
  | begun => exact hP.skeleton e _ he
  | appended => exact hP.skeleton e _ he
  | recorded => exact hP.record he c
  | taken h => exact hP.skeleton _ _ (hP.atTurn he h)
  | turned h => exact hP.turn _ (hP.atTurn he h)

theorem turnsIn (hP : Kept P) (he : P e) (h : TurnsIn commands e m) : P m := by
  induction h with
  | here h => exact hP.atTurn he h
  | later hstep _ ih => exact ih (hP.step he hstep)

theorem passes (hP : Kept P) (he : P e) (h : Passes commands e m) : P m := by
  induction h with
  | here h => exact hP.moment he h
  | later hstep _ ih => exact ih (hP.step he hstep)

end Kept

/-! ## Stepping on after faults -/

/-- A step after some others begins at this engine. -/
abbrev Rests (fresh e : Engine) : Prop := ∃ commands, Stepped fresh commands e

/-- A turn of some step begins at this engine. -/
def TurnsAt (fresh e : Engine) : Prop := ∃ rest c, Rests fresh rest ∧ AtTurn c rest e

/-- The engine appears when commands are stepped through, at rest or in a step. -/
def Appears (fresh e : Engine) : Prop :=
  Rests fresh e ∨ ∃ rest c, Rests fresh rest ∧ Moment c rest e

end TapeScript.Engine
