import TapeScript.Proofs.Engine.Discipline
import TapeScript.Proofs.Engine.Limit
import TapeScript.Proofs.Script.Tracing
import Mathlib.Data.List.Basic

/-! # What an engine executes

The log of a stepping engine: every command that it executes, first passes and repeated ones
alike, with its place in the script and the tape that it finds. -/

namespace TapeScript

/-! ## The place of a command -/

namespace Skeleton

variable {s : Skeleton} {c : Command} {id : Nat}

/-- The commands that were recorded before the node. -/
def before (s : Skeleton) (id : Nat) : List Command := (List.range id).filterMap s.command?

theorem SameShape.before {t : Skeleton} (h : s.SameShape t) (id : Nat) :
    s.before id = t.before id := by
  rw [Skeleton.before, funext h.command?]
  rfl

/-- Recording puts its command on one node. -/
theorem command?_state_record (s : Skeleton) (c : Command) (id : Nat) :
    (s.record c).state.command? id = if id = s.size + lead c then some c else s.command? id := by
  simp only [record]
  cases hk : c.kind with
  | simple action =>
      simp only [lead, hk]
      exact command?_push c s id
  | loopOpen =>
      simp only [lead, hk]
      exact Chained.command?_opened c id
  | loopClose =>
      simp only [lead, hk, command?_sealLoop]
      exact command?_push c s id

theorem before_succ_of_command? (h : s.command? id = some c) :
    s.before (id + 1) = s.before id ++ [c] := by
  rw [before, before, List.range_succ, List.filterMap_append, List.filterMap_cons, h,
    List.filterMap_nil]

theorem before_succ_of_none (h : s.command? id = none) : s.before (id + 1) = s.before id := by
  rw [before, before, List.range_succ, List.filterMap_append, List.filterMap_cons, h,
    List.filterMap_nil, List.append_nil]

theorem before_lead (s : Skeleton) (c : Command) :
    s.before (s.size + lead c) = s.before s.size := by
  rw [lead]
  cases c.kind with
  | simple action => rfl
  | loopOpen => exact before_succ_of_none (command?_eq_none (Nat.le_refl _))
  | loopClose => rfl

theorem before_record (c : Command) (hid : id ≤ s.size + lead c) :
    (s.record c).state.before id = s.before id := by
  refine List.filterMap_congr fun i hi => ?_
  rw [command?_state_record, if_neg]
  have hlt := List.mem_range.mp hi
  omega

/-- Behind all nodes stand all commands, in the order in which they were recorded. -/
theorem before_nodeCount (commands : List Command) :
    (recorded commands).before (nodeCount commands) = commands := by
  induction commands using List.reverseRecOn with
  | nil => rfl
  | append_singleton commands c ih =>
      have hcommand : ((recorded commands).record c).state.command?
          ((recorded commands).size + lead c) = some c := by
        rw [command?_state_record, if_pos rfl]
      have hcount : nodeCount (commands ++ [c]) = (recorded commands).size + lead c + 1 := by
        rw [size_recorded, nodeCount_append, nodeCount_cons, nodeCount_nil]
        rfl
      rw [recorded_concat, hcount, before_succ_of_command? hcommand,
        before_record c (Nat.le_refl _), before_lead, size_recorded, ih]

theorem before_seat (pre : List Command) (c : Command) (rest : List Command) :
    (recorded (pre ++ c :: rest)).before (seat pre c) = pre := by
  have hlast : (recorded (pre ++ [c])).before (seat pre c) = pre ∧
      seat pre c ≤ (recorded (pre ++ [c])).size := by
    have hseat : seat pre c = (recorded pre).size + lead c := by rw [seat, size_recorded]
    rw [recorded_concat, hseat, before_record c (Nat.le_refl _), before_lead, size_recorded,
      before_nodeCount, size_record, size_recorded]
    exact ⟨rfl, Nat.le_succ _⟩
  rw [List.append_cons]
  refine (recorded_induction (P := fun s => s.before (seat pre c) = pre ∧ seat pre c ≤ s.size)
    (fun s d _ hs => ?_) _ rest hlast).1
  have hle : seat pre c ≤ s.size + lead d := Nat.le_trans hs.2 (Nat.le_add_right _ _)
  rw [before_record d hle, size_record]
  exact ⟨hs.1, Nat.le_succ_of_le hle⟩

end Skeleton

namespace Engine

/-! ## Logs -/

/-- What the next turn executes. -/
def act? (e : Engine) : Option Act :=
  (e.skeleton.pending.bind e.skeleton.target?).bind fun id =>
    (e.skeleton.command? id).map fun command =>
      ⟨(e.skeleton.before id).length, command, e.device.tape⟩

/-- Turns that ran lead from one engine to the other, and execute this. -/
inductive Acts : Engine → List Act → Engine → Prop where
  | nil (e : Engine) : Acts e [] e
  | cons {e e' e'' : Engine} {a : Act} {log : List Act} (hact : e.act? = some a)
      (hturn : e.turn = .ran e') (h : Acts e' log e'') : Acts e (a :: log) e''

/-- Stepping through the commands goes well and executes this. -/
inductive Logs : List Command → Engine → List Act → Engine → Prop where
  | nil (e : Engine) : Logs [] e [] e
  | scanned {c : Command} {cs : List Command} {e e₁ e' : Engine} {log : List Act}
      (hrecord : e.record c = .ok e₁) (hscanned : e₁.skeleton.scanned ≠ none)
      (h : Logs cs e₁ log e') : Logs (c :: cs) e log e'
  | settled {c : Command} {cs : List Command} {e e₁ e₂ e₃ e' : Engine} {log log' : List Act}
      (hrecord : e.record c = .ok e₁) (hscanned : e₁.skeleton.scanned = none)
      (hacts : Acts e₁ log e₂) (hidle : e₂.turn = .idle e₃) (h : Logs cs e₃ log' e') :
      Logs (c :: cs) e (log ++ log') e'

variable {c : Command} {cs ds : List Command} {e e' e'' e₁ e₂ : Engine} {a : Act}
  {log log' : List Act}

theorem Acts.single (hact : e.act? = some a) (hturn : e.turn = .ran e') : Acts e [a] e' :=
  .cons hact hturn (.nil e')

theorem Acts.append (h : Acts e log e') (h' : Acts e' log' e'') : Acts e (log ++ log') e'' := by
  induction h with
  | nil => exact h'
  | cons hact hturn _ ih => exact .cons hact hturn (ih h')

theorem Logs.append (h : Logs cs e log e') (h' : Logs ds e' log' e'') :
    Logs (cs ++ ds) e (log ++ log') e'' := by
  induction h with
  | nil => exact h'
  | scanned hrecord hscanned _ ih => exact .scanned hrecord hscanned (ih h')
  | settled hrecord hscanned hacts hidle _ ih =>
      rw [List.append_assoc]
      exact .settled hrecord hscanned hacts hidle (ih h')

/-! ## One log for every stepping -/

theorem Acts.unique (h : Acts e log e₁) (hidle : e₁.turn = .idle e') (h' : Acts e log' e₂)
    (hidle' : e₂.turn = .idle e'') : log = log' ∧ e₁ = e₂ := by
  induction h generalizing log' with
  | nil =>
      cases h' with
      | nil => exact ⟨rfl, rfl⟩
      | cons _ hturn _ => rw [hidle] at hturn; cases hturn
  | cons hact hturn _ ih =>
      cases h' with
      | nil => rw [hidle'] at hturn; cases hturn
      | cons hact' hturn' hrest =>
          obtain rfl := Option.some.inj (hact.symm.trans hact')
          obtain rfl := Turn.ran.inj (hturn.symm.trans hturn')
          obtain ⟨rfl, hsame⟩ := ih hidle hrest
          exact ⟨rfl, hsame⟩

theorem Logs.unique (h : Logs cs e log e') (h' : Logs cs e log' e'') : log = log' ∧ e' = e'' := by
  induction h generalizing log' with
  | nil =>
      cases h'
      exact ⟨rfl, rfl⟩
  | scanned hrecord hscanned _ ih =>
      cases h' with
      | scanned hrecord' _ hrest =>
          obtain rfl := Outcome.ok.inj (hrecord.symm.trans hrecord')
          exact ih hrest
      | settled hrecord' hscanned' _ _ _ =>
          obtain rfl := Outcome.ok.inj (hrecord.symm.trans hrecord')
          exact absurd hscanned' hscanned
  | settled hrecord hscanned hacts hidle _ ih =>
      cases h' with
      | scanned hrecord' hscanned' _ =>
          obtain rfl := Outcome.ok.inj (hrecord.symm.trans hrecord')
          exact absurd hscanned hscanned'
      | settled hrecord' _ hacts' hidle' hrest =>
          obtain rfl := Outcome.ok.inj (hrecord.symm.trans hrecord')
          obtain ⟨rfl, rfl⟩ := hacts.unique hidle hacts' hidle'
          obtain rfl := Turn.idle.inj (hidle.symm.trans hidle')
          obtain ⟨rfl, hsame⟩ := ih hrest
          exact ⟨rfl, hsame⟩

/-! ## Every action is in the log -/

/-- A turn that ran has executed what was due. -/
theorem ran_cases (h : e.turn = .ran e') :
    (∃ a, e.act? = some a) ∧ e'.executed = e.executed + 1 := by
  rcases htake : e.skeleton.take with ⟨_ | c, s⟩
  · rw [turn_idle htake] at h
    cases h
  · obtain ⟨p, id, hp, ht, hc, -⟩ := Skeleton.take_eq_some htake
    refine ⟨⟨_, by rw [act?, hp, Option.bind_some, ht, Option.bind_some, hc]; rfl⟩, ?_⟩
    cases hx : exhausted? e.limit e.executed with
    | some k => rw [turn_exhausted htake hx] at h; cases h
    | none =>
        cases hk : c.kind with
        | simple action =>
            rw [turn_simple htake hx hk] at h
            cases hrun : action.run e.device with
            | ok device => rw [hrun] at h; exact (congrArg (·.executed) (Turn.ran.inj h)).symm
            | fault cause device => rw [hrun] at h; cases h
        | loopOpen =>
            rw [turn_loopOpen htake hx hk] at h
            exact (congrArg (·.executed) (Turn.ran.inj h)).symm
        | loopClose =>
            rw [turn_loopClose htake hx hk] at h
            exact (congrArg (·.executed) (Turn.ran.inj h)).symm

theorem Acts.executed (h : Acts e log e') : e'.executed = e.executed + log.length := by
  induction h with
  | nil => rfl
  | cons _ hturn _ ih =>
      rw [ih, (ran_cases hturn).2, List.length_cons]
      omega

theorem executed_record (h : e.record c = .ok e') : e'.executed = e.executed := by
  have hcount := (record_limit c e).2
  rwa [h] at hcount

theorem executed_idle (h : e.turn = .idle e') : e'.executed = e.executed := by
  rcases htake : e.skeleton.take with ⟨_ | c, s⟩
  · rw [turn_idle htake] at h
    exact (congrArg (·.executed) (Turn.idle.inj h)).symm
  · rw [turn_eq_act htake] at h
    split at h <;> cases h

/-- The log is as long as the number of actions that are counted. -/
theorem Logs.executed (h : Logs cs e log e') : e'.executed = e.executed + log.length := by
  induction h with
  | nil => rfl
  | scanned hrecord _ _ ih => rw [ih, executed_record hrecord]
  | settled hrecord _ hacts hidle _ ih =>
      rw [ih, executed_idle hidle, hacts.executed, executed_record hrecord, List.length_append]
      omega

theorem exists_acts (h : Turns e e') : ∃ log, Acts e log e' := by
  induction h with
  | refl => exact ⟨[], .nil e⟩
  | tail _ hturn ih =>
      obtain ⟨log, hacts⟩ := ih
      obtain ⟨⟨a, hact⟩, -⟩ := ran_cases hturn
      exact ⟨log ++ [a], hacts.append (.single hact hturn)⟩

/-- Stepping that goes well has a log. -/
theorem exists_logs (h : Steps cs e (.ok e')) : ∃ log, Logs cs e log e' := by
  induction cs generalizing e with
  | nil =>
      obtain rfl := Outcome.ok.inj (steps_nil.mp h)
      exact ⟨[], .nil _⟩
  | cons c cs ih =>
      cases steps_cons.mp h with
      | @ok e₂ _ hstep hrest =>
          obtain ⟨log', hlogs⟩ := ih hrest
          obtain ⟨fuel, hstep⟩ := hstep
          cases stepEnds hstep with
          | scanning hrecord hscanned => exact ⟨log', .scanned hrecord hscanned hlogs⟩
          | idle hat hidle =>
              obtain ⟨e₁, hrecord, hscanned, hturns⟩ := hat
              obtain ⟨log, hacts⟩ := exists_acts hturns
              exact ⟨log ++ log', .settled hrecord hscanned hacts hidle hlogs⟩

theorem Acts.settle (h : Acts e log e₁) (hidle : e₁.turn = .idle e') :
    Halts (Engine.settle · e) (.ok e') := by
  induction h with
  | nil => exact settle_of_idle hidle
  | cons _ hturn _ ih =>
      exact ((continues_of_ran hturn).halts_iff (steady_settle _) _).mpr (ih hidle)

/-- Only stepping that goes well has a log. -/
theorem Logs.steps (h : Logs cs e log e') : Steps cs e (.ok e') := by
  induction h with
  | nil => exact steps_nil.mpr rfl
  | scanned hrecord hscanned _ ih =>
      exact steps_cons.mpr (.ok ((step_of_scanning hrecord hscanned).mpr rfl) ih)
  | settled hrecord hscanned hacts hidle _ ih =>
      exact steps_cons.mpr
        (.ok ((step_of_settle hrecord hscanned).mpr (hacts.settle hidle)) ih)

end Engine

end TapeScript
