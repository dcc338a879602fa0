import TapeScript.Proofs.Engine.Stepping
import TapeScript.Proofs.Script.Replay
import TapeScript.Proofs.Skeleton.Pairs

/-! # Turns of an engine and acts of an evaluation

A turn performs what an evaluation performs at the same command. Where it goes then is
read off the links, which lead to the same command as the tree does. -/

namespace TapeScript

open Script (Progress)

namespace Engine

def progress (e : Engine) : Progress := ⟨e.device, e.executed⟩

/-- Where a command that was executed leads: a loop is left over a zero cell, and repeated
from its end. -/
def passed (c : Command) (tape : Tape) (s : Skeleton) : Skeleton :=
  match c.kind with
  | .simple _ => s
  | .loopOpen => if tape.current = 0 then s.leaveLoop else s
  | .loopClose => s.repeatLoop

theorem charge_eq (limit : Option Nat) (p : Progress) :
    p.charge limit =
      match exhausted? limit p.executed with
      | some k => .fault (.limitReached k) p
      | none => .ok { p with executed := p.executed + 1 } := by
  cases limit with
  | none => rfl
  | some k =>
      by_cases hk : p.executed < k
      · simp [Progress.charge, exhausted?, Option.filter, hk, Nat.not_le.mpr hk]
      · simp [Progress.charge, exhausted?, Option.filter, hk, Nat.le_of_not_gt hk]

/-- A turn performs the act of the command that is due. -/
theorem turn_eq_act {e : Engine} {c : Command} {s : Skeleton}
    (h : e.skeleton.take = (some c, s)) :
    e.turn =
      match e.progress.act e.limit c with
      | .ok p => .ran ⟨p.device, passed c p.device.tape s, e.limit, p.executed⟩
      | .fault cause p => .stopped cause ⟨p.device, s, e.limit, p.executed⟩ := by
  rw [Progress.act, charge_eq]
  cases hx : exhausted? e.limit e.executed with
  | some k =>
      rw [turn_exhausted h hx]
      simp only [progress, hx]
  | none =>
      simp only [progress, hx]
      cases hk : c.kind with
      | simple action =>
          rw [turn_simple h hx hk]
          simp only [passed, hk]
          cases action.run e.device <;> rfl
      | loopOpen =>
          rw [turn_loopOpen h hx hk]
          simp only [passed, hk]
      | loopClose =>
          rw [turn_loopClose h hx hk]
          simp only [passed, hk]

/-! ## Settling -/

theorem steady_settle (e : Engine) : Steady (settle · e) := by
  intro fuel
  induction fuel generalizing e with
  | zero =>
      intro o h
      cases h
  | succ fuel ih =>
      intro o h
      dsimp only at h ih ⊢
      rw [settle] at h ⊢
      split at h
      · exact h
      · exact h
      · exact ih _ h

theorem continues_of_ran {e e' : Engine} (h : e.turn = .ran e') : Continues settle 1 e e' := by
  intro fuel
  rw [Nat.add_comm, settle, h]

theorem settle_of_stopped {e e' : Engine} {cause : Fault} (h : e.turn = .stopped cause e') :
    Halts (settle · e) (.fault cause e') :=
  ⟨1, by simp only [settle, h]⟩

theorem settle_of_idle {e e' : Engine} (h : e.turn = .idle e') : Halts (settle · e) (.ok e') :=
  ⟨1, by simp only [settle, h]⟩

/-! ## Commands that are due -/

section Take

variable {s : Skeleton} {id : Nat} {c : Command}

theorem take_of_due (hdue : s.pending.bind s.target? = some id) (hc : s.command? id = some c) :
    s.take = (some c, { s with last := some id, pending := s.next? id }) := by
  simp only [Skeleton.take, hdue, hc]

theorem take_of_not_due (hdue : s.pending.bind s.target? = none) : s.take = (none, s) := by
  simp only [Skeleton.take, hdue]

end Take

/-- Of the recorded commands the beginning `pre` is done, and the next one is due. -/
structure DueAt (limit : Option Nat) (commands pre : List Command) (p : Progress)
    (e : Engine) : Prop where
  shape : e.skeleton.SameShape (Skeleton.recorded commands)
  scanned : e.skeleton.scanned = none
  due : ∃ rest, commands = pre ++ rest ∧
    e.skeleton.pending.bind e.skeleton.target? = Skeleton.nextSeat pre rest
  limit_eq : e.limit = limit
  progress_eq : e.progress = p

namespace DueAt

variable {limit : Option Nat} {commands pre body post : List Command} {p p' : Progress}
  {e : Engine} {c o : Command}

/-- The skeleton once the next command was taken. -/
def taken (e : Engine) (pre : List Command) (c : Command) : Skeleton :=
  { e.skeleton with
    last := some (Skeleton.seat pre c)
    pending := e.skeleton.next? (Skeleton.seat pre c) }

theorem sameShape_taken (h : DueAt limit commands pre p e) (c : Command) :
    (taken e pre c).SameShape (Skeleton.recorded commands) :=
  .trans (t := e.skeleton) ⟨rfl, rfl, rfl⟩ h.shape

theorem turn_eq (h : DueAt limit commands pre p e) (hc : commands = pre ++ c :: post) :
    e.turn =
      match p.act limit c with
      | .ok p => .ran ⟨p.device, passed c p.device.tape (taken e pre c), limit, p.executed⟩
      | .fault cause p => .stopped cause ⟨p.device, taken e pre c, limit, p.executed⟩ := by
  obtain ⟨rest, hrest, hdue⟩ := h.due
  obtain rfl := List.append_cancel_left (hrest.symm.trans hc)
  have hcommand : e.skeleton.command? (Skeleton.seat pre c) = some c := by
    rw [h.shape.command?, hc]
    exact Skeleton.command?_seat pre c post
  rw [turn_eq_act (take_of_due hdue hcommand), h.progress_eq, h.limit_eq]
  rfl

theorem target?_taken (h : DueAt limit commands pre p e) (c : Command) :
    (taken e pre c).target? = (Skeleton.recorded commands).target? := by
  funext id
  exact (h.sameShape_taken c).target? id

/-- Taking a command that closes no loop makes the next one due. -/
theorem taken_due (h : DueAt limit commands pre p e) (hc : commands = pre ++ c :: post)
    (hk : c.kind ≠ .loopClose) :
    (taken e pre c).pending.bind (taken e pre c).target? = Skeleton.nextSeat (pre ++ [c]) post := by
  have hsplit : commands = pre ++ [c] ++ post := by rw [hc, List.append_cons]
  have hnext : e.skeleton.next? (Skeleton.seat pre c) = Skeleton.entrance (pre ++ [c]) post := by
    rw [h.shape.next?, hc, Skeleton.next?_seat hk]
  rw [h.target?_taken c, taken, hnext, hsplit]
  exact Skeleton.entrance_bind_target? (pre ++ [c]) post

/-- The command that was executed leads to another engine at which something is due. -/
theorem continues (h : DueAt limit commands pre p e) (hc : commands = pre ++ c :: post)
    (ha : p.act limit c = .ok p') :
    Continues settle 1 e
      ⟨p'.device, passed c p'.device.tape (taken e pre c), limit, p'.executed⟩ := by
  apply continues_of_ran
  rw [h.turn_eq hc, ha]

theorem halts_fault {cause : Fault} (h : DueAt limit commands pre p e)
    (hc : commands = pre ++ c :: post) (ha : p.act limit c = .fault cause p') :
    Halts (settle · e) (.fault cause ⟨p'.device, taken e pre c, limit, p'.executed⟩) := by
  apply settle_of_stopped
  rw [h.turn_eq hc, ha]

/-- Going on with the next command. -/
theorem next (h : DueAt limit commands pre p e) (hc : commands = pre ++ c :: post)
    (hk : c.kind ≠ .loopClose) (p' : Progress) :
    DueAt limit commands (pre ++ [c]) p' ⟨p'.device, taken e pre c, limit, p'.executed⟩ where
  shape := h.sameShape_taken c
  scanned := h.scanned
  due := ⟨post, by rw [hc, List.append_cons], h.taken_due hc hk⟩
  limit_eq := rfl
  progress_eq := rfl

section Pair

variable (ho : o.kind = .loopOpen) (hc : c.kind = .loopClose)
  (hbody : Bracket.Balanced (Bracket.ofCommands body))
include ho hc hbody

/-- Leaving a loop whose closing command was recorded starts no scan. -/
theorem leaveLoop_taken (h : DueAt limit commands pre p e)
    (hpair : commands = pre ++ o :: body ++ c :: post) :
    (taken e pre o).leaveLoop =
      { taken e pre o with pending := Skeleton.entrance (pre ++ o :: body ++ [c]) post } := by
  have hopen : commands = pre ++ o :: (body ++ c :: post) := by simp [hpair]
  have hshape := h.sameShape_taken o
  have hlast : (taken e pre o).last = some (Skeleton.seat pre o) := rfl
  have hown : (taken e pre o).ownLoop? (Skeleton.seat pre o) = some (Skeleton.nodeCount pre) := by
    rw [hshape.ownLoop?, hopen, Skeleton.ownLoop?_opening ho]
  have hloop : (taken e pre o).next? (Skeleton.nodeCount pre) =
      Skeleton.entrance (pre ++ o :: body ++ [c]) post := by
    rw [hshape.next?, hpair, Skeleton.next?_loop ho hc hbody]
  have hnext : (taken e pre o).next? (Skeleton.seat pre o) ≠ none := by
    rw [hshape.next?, hopen, Skeleton.next?_seat (by simp [ho])]
    simp [Skeleton.entrance]
  simp only [Skeleton.leaveLoop, hlast, hown, hloop, Option.isNone_iff_eq_none, if_neg hnext]

theorem leave (h : DueAt limit commands pre p e)
    (hpair : commands = pre ++ o :: body ++ c :: post) (p' : Progress) :
    DueAt limit commands (pre ++ o :: body ++ [c]) p'
      ⟨p'.device, (taken e pre o).leaveLoop, limit, p'.executed⟩ := by
  have hshape := (Skeleton.sameShape_leaveLoop (taken e pre o)).trans (h.sameShape_taken o)
  have hsplit : commands = pre ++ o :: body ++ [c] ++ post := by simp [hpair]
  refine ⟨hshape, ?_, ⟨post, hsplit, ?_⟩, rfl, rfl⟩
  · rw [h.leaveLoop_taken ho hc hbody hpair]
    exact h.scanned
  · rw [h.leaveLoop_taken ho hc hbody hpair]
    dsimp only
    have htarget := h.target?_taken o
    rw [hsplit] at htarget
    exact (congrArg _ htarget).trans (Skeleton.entrance_bind_target? _ post)

theorem back (h : DueAt limit commands (pre ++ o :: body) p e)
    (hpair : commands = pre ++ o :: body ++ c :: post) (p' : Progress) :
    DueAt limit commands pre p'
      ⟨p'.device, (taken e (pre ++ o :: body) c).repeatLoop, limit, p'.executed⟩ := by
  have htaken := h.sameShape_taken c
  have hopen : commands = pre ++ (o :: body ++ c :: post) := by simp [hpair]
  have hstart : (taken e (pre ++ o :: body) c).chainStart (Skeleton.seat (pre ++ o :: body) c) =
      Skeleton.seat pre o := by
    rw [htaken.chainStart, hpair, Skeleton.chainStart_closing ho hc hbody]
  have hcommand : (taken e (pre ++ o :: body) c).command? (Skeleton.seat pre o) = some o := by
    rw [htaken.command?, hopen]
    exact Skeleton.command?_seat pre o _
  have hrepeat : (taken e (pre ++ o :: body) c).repeatLoop =
      { taken e (pre ++ o :: body) c with pending := some (Skeleton.seat pre o) } := by
    rw [← hstart]
    rfl
  refine ⟨(Skeleton.sameShape_repeatLoop _).trans htaken, ?_, ⟨_, hopen, ?_⟩, rfl, rfl⟩
  · rw [hrepeat]
    exact h.scanned
  · rw [hrepeat]
    exact Skeleton.target?_of_command? hcommand

end Pair

end DueAt

/-- The engine fails, with this progress. -/
def FailsWith (cause : Fault) (p : Progress) (o : Outcome Engine) : Prop :=
  ∃ e, o = .fault cause e ∧ e.progress = p

/-- A settling engine replays what is recorded. -/
theorem replays_settle (limit : Option Nat) (commands : List Command) :
    Replays limit commands settle (DueAt limit commands) FailsWith where
  zero := fun _ => rfl
  steady := steady_settle
  act := by
    intro pre post c action p p' e hc hk h ha
    have hclose : c.kind ≠ .loopClose := by simp [hk]
    have hcont := h.continues hc ha
    simp only [passed, hk] at hcont
    exact ⟨0, _, hcont, h.next hc hclose p'⟩
  fail := by
    intro pre post c cause p p' e hc h ha
    exact ⟨_, h.halts_fault hc ha, _, rfl, rfl⟩
  enter := by
    intro pre body post o c p p' e hpair ho hc hbody h ha hz
    have hopen : commands = pre ++ o :: (body ++ c :: post) := by simp [hpair]
    have hcont := h.continues hopen ha
    simp only [passed, ho, if_neg hz] at hcont
    exact ⟨0, _, hcont, h.next hopen (by simp [ho]) p'⟩
  leave := by
    intro pre body post o c p p' e hpair ho hc hbody h ha hz
    have hopen : commands = pre ++ o :: (body ++ c :: post) := by simp [hpair]
    have hcont := h.continues hopen ha
    simp only [passed, ho, if_pos hz] at hcont
    exact ⟨0, _, hcont, h.leave ho hc hbody hpair p'⟩
  back := by
    intro pre body post o c p p' e hpair ho hc hbody h ha
    have hcont := h.continues hpair ha
    simp only [passed, hc] at hcont
    exact ⟨1, _, hcont, h.back ho hc hbody hpair p'⟩

end Engine

end TapeScript
