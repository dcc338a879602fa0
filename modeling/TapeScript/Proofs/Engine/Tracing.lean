import TapeScript.Proofs.Engine.Acts
import TapeScript.Proofs.Engine.Refinement

/-! # An engine executes the trace of its script

The first pass through a tree executes its trace: what it repeats it replays among its recorded
commands, and what it passes over leaves no act behind. -/

namespace TapeScript

open Script

namespace Script.Progress

variable {c : Command} {p : Progress}

theorem act_simple {action : Action} {d : Device} (hk : c.kind = .simple action)
    (hrun : action.run p.device = .ok d) : p.act none c = .ok ⟨d, p.executed + 1⟩ := by
  simp only [act, charge, hk, hrun]
  rfl

theorem act_bracket (hk : c.kind = .loopOpen ∨ c.kind = .loopClose) :
    p.act none c = .ok ⟨p.device, p.executed + 1⟩ := by
  rcases hk with hk | hk <;> simp only [act, charge, hk]

end Script.Progress

namespace Engine

variable {commands pre pre' body post cs ds : List Command} {c o : Command} {p p' : Progress}
  {e : Engine} {t : Script} {n : Nat} {d d' : Device} {log log' : List Act}

/-! ## Replaying -/

theorem DueAt.act?_eq (h : DueAt none commands pre p e) (hc : commands = pre ++ c :: post) :
    e.act? = some ⟨pre.length, c, p.device.tape⟩ := by
  obtain ⟨rest, hrest, hdue⟩ := h.due
  obtain rfl := List.append_cancel_left (hrest.symm.trans hc)
  have hcommand : e.skeleton.command? (Skeleton.seat pre c) = some c := by
    rw [h.shape.command?, hc]
    exact Skeleton.command?_seat pre c post
  have hbefore : e.skeleton.before (Skeleton.seat pre c) = pre := by
    rw [h.shape.before, hc]
    exact Skeleton.before_seat pre c post
  rw [act?, hdue, Skeleton.nextSeat, Option.bind_some, hcommand, hbefore, ← h.progress_eq]
  rfl

theorem DueAt.turn_ran (h : DueAt none commands pre p e) (hc : commands = pre ++ c :: post)
    (ha : p.act none c = .ok p') :
    e.turn = .ran ⟨p'.device, passed c p'.device.tape (taken e pre c), none, p'.executed⟩ := by
  rw [h.turn_eq hc, ha]

/-- The engine executes this, and then all up to `pre` is done, on this device. -/
def Attains (commands : List Command) (e : Engine) (log : List Act) (pre : List Command)
    (d : Device) : Prop :=
  ∃ e' p, Acts e log e' ∧ DueAt none commands pre p e' ∧ p.device = d

theorem DueAt.attains (h : DueAt none commands pre p e) :
    Attains commands e [] pre p.device :=
  ⟨e, p, .nil e, h, rfl⟩

theorem Attains.trans (h : Attains commands e log pre d)
    (hnext : ∀ e' p, DueAt none commands pre p e' → p.device = d →
      Attains commands e' log' pre' d') : Attains commands e (log ++ log') pre' d' := by
  obtain ⟨e₁, p₁, hacts₁, hat, hp⟩ := h
  obtain ⟨e₂, p₂, hacts₂, hat'⟩ := hnext e₁ p₁ hat hp
  exact ⟨e₂, p₂, hacts₁.append hacts₂, hat'⟩

section Steps

variable (h : DueAt none commands pre p e)
include h

theorem DueAt.attains_single (p' : Progress) (hc : commands = pre ++ c :: post)
    (ha : p.act none c = .ok p')
    (hat : DueAt none commands pre' p'
      ⟨p'.device, passed c p'.device.tape (taken e pre c), none, p'.executed⟩) :
    Attains commands e [⟨pre.length, c, p.device.tape⟩] pre' p'.device :=
  ⟨_, p', .single (h.act?_eq hc) (h.turn_ran hc ha), hat, rfl⟩

theorem DueAt.attains_act {action : Action} (hc : commands = pre ++ c :: post)
    (hk : c.kind = .simple action) (hrun : action.run p.device = .ok d) :
    Attains commands e [⟨pre.length, c, p.device.tape⟩] (pre ++ [c]) d := by
  refine h.attains_single ⟨d, p.executed + 1⟩ hc (Progress.act_simple hk hrun) ?_
  simp only [passed, hk]
  exact h.next hc (by simp [hk]) _

theorem DueAt.attains_enter (hc : commands = pre ++ o :: post) (ho : o.kind = .loopOpen)
    (hnz : p.device.tape.current ≠ 0) :
    Attains commands e [⟨pre.length, o, p.device.tape⟩] (pre ++ [o]) p.device := by
  refine h.attains_single ⟨p.device, p.executed + 1⟩ hc (Progress.act_bracket (.inl ho)) ?_
  simp only [passed, ho, if_neg hnz]
  exact h.next hc (by simp [ho]) ⟨p.device, p.executed + 1⟩

theorem DueAt.attains_leave (hpair : commands = pre ++ o :: body ++ c :: post)
    (ho : o.kind = .loopOpen) (hc : c.kind = .loopClose)
    (hbody : Bracket.Balanced (Bracket.ofCommands body)) (hz : p.device.tape.current = 0) :
    Attains commands e [⟨pre.length, o, p.device.tape⟩] (pre ++ o :: body ++ [c]) p.device := by
  have hopen : commands = pre ++ o :: (body ++ c :: post) := by simp [hpair]
  refine h.attains_single ⟨p.device, p.executed + 1⟩ hopen (Progress.act_bracket (.inl ho)) ?_
  simp only [passed, ho, if_pos hz]
  exact h.leave ho hc hbody hpair ⟨p.device, p.executed + 1⟩

end Steps

theorem DueAt.attains_back (h : DueAt none commands (pre ++ o :: body) p e)
    (hpair : commands = pre ++ o :: body ++ c :: post) (ho : o.kind = .loopOpen)
    (hc : c.kind = .loopClose) (hbody : Bracket.Balanced (Bracket.ofCommands body)) :
    Attains commands e [⟨(pre ++ o :: body).length, c, p.device.tape⟩] pre p.device := by
  refine h.attains_single ⟨p.device, p.executed + 1⟩ hpair (Progress.act_bracket (.inr hc)) ?_
  simp only [passed, hc]
  exact h.back ho hc hbody hpair ⟨p.device, p.executed + 1⟩

theorem length_opened {body : Script} (hn : pre.length = n) :
    (pre ++ o :: body.toCommands).length = n + body.length + 1 := by
  simp only [length, List.length_append, List.length_cons, hn, Nat.add_assoc]

theorem length_closed {body : Script} (hn : pre.length = n) :
    (pre ++ o :: body.toCommands ++ [c]).length = n + body.length + 2 := by
  rw [List.length_append, length_opened hn]
  rfl

/-- An engine among recorded commands executes the trace of the tree that is due. -/
theorem DueAt.attains_of_traces (h : t.Traces n d log d') (ht : t.Proper)
    (hrecorded : pre ++ t.toCommands <+: commands) (hn : pre.length = n)
    (hat : DueAt none commands pre p e) (hp : p.device = d) :
    Attains commands e log (pre ++ t.toCommands) d' := by
  induction h generalizing pre p e with
  | done =>
      subst hp
      rw [toCommands, List.append_nil]
      exact hat.attains
  | @act n c rest action d d' d'' log hk hrun h ih =>
      cases ht with
      | act _ hrest =>
          subst hn hp
          rw [toCommands, List.append_cons] at hrecorded ⊢
          obtain ⟨post, hpost⟩ := hrecorded
          have hsplit : commands = pre ++ c :: (rest.toCommands ++ post) := by simp [← hpost]
          refine (hat.attains_act hsplit hk hrun).trans fun e₁ p₁ hat₁ hp₁ => ?_
          exact ih hrest ⟨post, hpost⟩ (by simp) hat₁ hp₁
  | @leave n o c body rest d d' log hz h ih =>
      cases ht with
      | loop ho hc hbody hrest =>
          subst hn hp
          rw [append_loop] at hrecorded ⊢
          obtain ⟨post, hpost⟩ := hrecorded
          have hpair : commands =
              pre ++ o :: body.toCommands ++ c :: (rest.toCommands ++ post) := by simp [← hpost]
          refine (hat.attains_leave hpair ho hc hbody.balanced hz).trans fun e₁ p₁ hat₁ hp₁ => ?_
          exact ih hrest ⟨post, hpost⟩ (length_closed rfl) hat₁ hp₁
  | @enter n o c body rest d d' d'' inside log hnz hin hagain ihbody ih =>
      cases ht with
      | loop ho hc hbody hrest =>
          subst hn hp
          obtain ⟨post, hpost⟩ := hrecorded
          have hpair : commands =
              pre ++ o :: body.toCommands ++ c :: (rest.toCommands ++ post) := by
            simp [← hpost, toCommands]
          have hopen : commands = pre ++ o :: (body.toCommands ++ c :: (rest.toCommands ++ post)) :=
            by simp [hpair]
          have hinside : pre ++ [o] ++ body.toCommands <+: commands :=
            ⟨c :: (rest.toCommands ++ post), by simp [hpair]⟩
          refine (hat.attains_enter hopen ho hnz).trans fun e₁ p₁ hat₁ hp₁ => ?_
          refine (ihbody hbody hinside (by simp) hat₁ hp₁).trans ?_
          rintro e₂ p₂ hat₂ rfl
          rw [← List.append_cons] at hat₂
          rw [← length_opened rfl]
          refine (hat₂.attains_back hpair ho hc hbody.balanced).trans fun e₃ p₃ hat₃ hp₃ => ?_
          exact ih (.loop ho hc hbody hrest) ⟨post, hpost⟩ rfl hat₃ hp₃

/-! ## The first pass -/

/-- Stepping through the commands executes this, and then all of them are done, on this
device. -/
def Completes (pre : List Command) (e : Engine) (cs : List Command) (log : List Act)
    (d : Device) : Prop :=
  ∃ e' p, Logs cs e log e' ∧ Resting none (pre ++ cs) p e' ∧ p.device = d

theorem Completes.trans (h : Completes pre e cs log d)
    (hnext : ∀ e' p, Resting none (pre ++ cs) p e' → p.device = d →
      Completes (pre ++ cs) e' ds log' d') : Completes pre e (cs ++ ds) (log ++ log') d' := by
  obtain ⟨e₁, p₁, hlogs₁, hrest, hp⟩ := h
  obtain ⟨e₂, p₂, hlogs₂, hrest', hp'⟩ := hnext e₁ p₁ hrest hp
  exact ⟨e₂, p₂, hlogs₁.append hlogs₂, List.append_assoc pre cs ds ▸ hrest', hp'⟩

/-- A command that is recorded and then executed, with all that it leads to. -/
theorem Resting.completes_step (h : Resting none pre p e)
    (hopen : c.kind = .loopClose → (Skeleton.recorded pre).openLoops ≠ [])
    (hdue : ∀ e', DueAt none (pre ++ [c]) pre p e' →
      Attains (pre ++ [c]) e' log (pre ++ [c]) d) : Completes pre e [c] log d := by
  obtain ⟨e₁, hrecord, hat⟩ := h.record hopen
  obtain ⟨e₂, p₂, hacts, hat₂, hp⟩ := hdue e₁ hat
  obtain ⟨rest, hrest, hpending⟩ := hat₂.due
  obtain rfl : rest = [] := List.self_eq_append_right.mp hrest
  have hidle := turn_idle (take_of_not_due hpending)
  refine ⟨e₂, p₂, ?_, hat₂.rest.2, hp⟩
  rw [← List.append_nil log]
  exact .settled hrecord hat.scanned hacts hidle (.nil _)

theorem Resting.completes_act {action : Action} (h : Resting none pre p e)
    (hk : c.kind = .simple action) (hrun : action.run p.device = .ok d) :
    Completes pre e [c] [⟨pre.length, c, p.device.tape⟩] d :=
  h.completes_step (by simp [hk]) fun _ hat => hat.attains_act rfl hk hrun

theorem Resting.completes_enter (h : Resting none pre p e) (ho : o.kind = .loopOpen)
    (hnz : p.device.tape.current ≠ 0) :
    Completes pre e [o] [⟨pre.length, o, p.device.tape⟩] p.device :=
  h.completes_step (by simp [ho]) fun _ hat => hat.attains_enter rfl ho hnz

/-- The end of the first round of a loop is followed by all other rounds at once. -/
theorem Resting.completes_close {body : Script} (h : Resting none (pre ++ o :: body.toCommands) p e)
    (ho : o.kind = .loopOpen) (hc : c.kind = .loopClose) (hbody : body.Proper)
    (hagain : Traces pre.length (loop o body c done) p.device log d) :
    Completes (pre ++ o :: body.toCommands) e [c]
      (⟨(pre ++ o :: body.toCommands).length, c, p.device.tape⟩ :: log) d := by
  refine h.completes_step ?_ fun e₁ hat => ?_
  · rw [Skeleton.openLoops_body ho hbody.balanced]
    exact fun _ => List.cons_ne_nil _ _
  · refine (hat.attains_back rfl ho hc hbody.balanced).trans fun e₂ p₂ hat₂ hp₂ => ?_
    have htree : (loop o body c done).Proper := .loop ho hc hbody .done
    have hrounds := hat₂.attains_of_traces hagain htree (by simp [toCommands]) rfl hp₂
    simpa [toCommands] using hrounds

/-- What is passed over leaves no act behind. -/
theorem Scanning.completes
    (h : Scanning none (pre ++ [o]) (Skeleton.nodeCount pre) p e) (ho : o.kind = .loopOpen)
    (hc : c.kind = .loopClose) (hbody : Bracket.Balanced (Bracket.ofCommands body)) :
    Completes (pre ++ [o]) e (body ++ [c]) [] p.device := by
  obtain ⟨e₁, hsteps, hscan⟩ := h.steps [] (Skeleton.openLoops_opening ho pre) hbody
  rw [← List.append_cons] at hscan
  obtain ⟨e₂, hstep, hrest⟩ := hscan.step_close ho hc hbody
  have hall : Steps (body ++ [c]) e (.ok e₂) := by
    rw [steps_append]
    exact .ok ((hsteps _).mpr rfl) (steps_singleton.mpr ((hstep _).mpr rfl))
  obtain ⟨log, hlogs⟩ := exists_logs hall
  have hcount := hlogs.executed
  have hsame : e₂.executed = e.executed := by
    have hafter := congrArg Progress.executed hrest.progress_eq
    exact hafter.trans (congrArg Progress.executed h.progress_eq).symm
  obtain rfl : log = [] := List.length_eq_zero_iff.mp (by omega)
  exact ⟨e₂, p, hlogs, by simpa using hrest, rfl⟩

/-- A loop over a zero cell is opened, and then passed over. -/
theorem Resting.completes_skip (h : Resting none pre p e)
    (ho : o.kind = .loopOpen) (hc : c.kind = .loopClose)
    (hbody : Bracket.Balanced (Bracket.ofCommands body)) (hz : p.device.tape.current = 0) :
    Completes pre e (o :: body ++ [c]) [⟨pre.length, o, p.device.tape⟩] p.device := by
  obtain ⟨e₁, hrecord, hat⟩ := h.record (c := o) fun hk => by simp [ho] at hk
  have hran := hat.turn_ran rfl (Progress.act_bracket (.inl ho))
  simp only [passed, ho, if_pos hz] at hran
  obtain ⟨hscan, hpending⟩ := hat.scan ho ⟨p.device, p.executed + 1⟩
  have hdue : (DueAt.taken e₁ pre o).leaveLoop.pending.bind
      (DueAt.taken e₁ pre o).leaveLoop.target? = none := by
    rw [hpending, Option.bind_none]
  have hidle := turn_idle (e := ⟨p.device, (DueAt.taken e₁ pre o).leaveLoop, none, p.executed + 1⟩)
    (take_of_not_due hdue)
  obtain ⟨e₃, p₃, hlogs, hrest, hp⟩ := hscan.completes ho hc hbody
  exact ⟨e₃, p₃, .settled hrecord hat.scanned (.single (hat.act?_eq rfl) hran) hidle hlogs,
    by simpa using hrest, hp⟩

/-- An engine that is fed a tree executes its trace. -/
theorem Resting.completes (ht : t.Proper) (h : t.Traces n d log d') (hn : pre.length = n)
    (hrest : Resting none pre p e) (hp : p.device = d) :
    Completes pre e t.toCommands log d' := by
  induction ht generalizing n d log d' pre p e with
  | done =>
      cases h with
      | done =>
          refine ⟨e, p, .nil e, ?_, hp⟩
          rwa [toCommands, List.append_nil]
  | @act c rest action hk _ ih =>
      cases h with
      | act hk' hrun h =>
          subst hn hp
          refine (hrest.completes_act hk' hrun).trans fun e₁ p₁ hrest₁ hp₁ => ?_
          exact ih h (by simp) hrest₁ hp₁
  | @loop o c body rest ho hc hbody _ ihbody ih =>
      have hbehind : (pre ++ (o :: body.toCommands ++ [c])).length = n + body.length + 2 := by
        rw [← List.append_assoc, length_closed hn]
      have hsplit : (loop o body c rest).toCommands =
          o :: body.toCommands ++ [c] ++ rest.toCommands := by simp [toCommands]
      rw [hsplit]
      cases h with
      | leave hz h =>
          subst hn hp
          refine (hrest.completes_skip ho hc hbody.balanced hz).trans fun e₁ p₁ hrest₁ hp₁ => ?_
          exact ih h hbehind hrest₁ hp₁
      | @enter _ _ _ _ _ _ d₁ _ inside _ hnz hin hagain =>
          subst hn hp
          obtain ⟨log₁, log₂, d₂, rfl, hagain, hafter⟩ := exists_traces_rest hagain
          have hfirst : Completes pre e (o :: body.toCommands)
              (⟨pre.length, o, p.device.tape⟩ :: inside) d₁ :=
            (hrest.completes_enter ho hnz).trans fun e₁ p₁ hrest₁ hp₁ =>
              ihbody hin (by simp) hrest₁ hp₁
          have hrounds : Completes pre e (o :: body.toCommands ++ [c])
              (⟨pre.length, o, p.device.tape⟩ :: inside ++
                ⟨pre.length + body.length + 1, c, d₁.tape⟩ :: log₁) d₂ := by
            refine hfirst.trans fun e₁ p₁ hrest₁ hp₁ => ?_
            subst hp₁
            rw [← length_opened rfl]
            exact hrest₁.completes_close ho hc hbody hagain
          have hall := hrounds.trans fun e₁ p₁ hrest₁ hp₁ => ih hafter hbehind hrest₁ hp₁
          simpa using hall

/-- Stepping a fresh engine through a script executes the trace of its tree. -/
theorem exists_logs_of_traces (ht : t.Proper) (h : t.Traces 0 d log d') :
    ∃ e, Logs t.toCommands { device := d } log e ∧ e.device = d' := by
  obtain ⟨e, p, hlogs, hrest, hp⟩ := (resting_fresh d none).completes ht h rfl rfl
  exact ⟨e, hlogs, (congrArg Progress.device hrest.progress_eq).trans hp⟩

end Engine

end TapeScript
