import TapeScript.Proofs.Engine.Turns

/-! # Feeding an engine

Commands come in one at a time. Between two of them the engine is at rest behind all that
was recorded, or it scans the rest of a loop body that it does not enter. -/

namespace TapeScript

open Outcome Script

namespace Engine

/-! ## Steps without fuel -/

theorem steady_step (c : Command) (e : Engine) : Steady (step · c e) := by
  intro fuel o h
  simp only [step] at h ⊢
  cases hr : e.record c with
  | fault cause e' => simpa only [hr] using h
  | ok e' =>
      simp only [hr] at h ⊢
      by_cases hs : e'.skeleton.isScanning
      · simpa only [if_pos hs] using h
      · rw [if_neg hs] at h ⊢
        exact steady_settle e' h

theorem steps_cons_eq (fuel : Nat) (c : Command) (cs : List Command) (e : Engine) :
    steps fuel (c :: cs) e = chain (step fuel c e) (steps fuel cs) := by
  rw [steps]
  rcases step fuel c e with _ | e' | ⟨cause, e'⟩ <;> rfl

theorem steps_append_eq (fuel : Nat) (cs ds : List Command) (e : Engine) :
    steps fuel (cs ++ ds) e = chain (steps fuel cs e) (steps fuel ds) := by
  induction cs generalizing e with
  | nil => rfl
  | cons c cs ih =>
      rw [List.cons_append, steps_cons_eq, steps_cons_eq]
      rcases step fuel c e with _ | e' | ⟨cause, e'⟩
      · rfl
      · exact ih e'
      · rfl

theorem steady_steps (cs : List Command) (e : Engine) : Steady (steps · cs e) := by
  induction cs generalizing e with
  | nil => exact steady_const _
  | cons c cs ih =>
      simp only [steps_cons_eq]
      exact steady_chain (steady_step c e) ih

/-- The step ends with this outcome. -/
def Step (c : Command) (e : Engine) (o : Outcome Engine) : Prop := Halts (step · c e) o

/-- Stepping through the commands ends with this outcome. -/
def Steps (cs : List Command) (e : Engine) (o : Outcome Engine) : Prop := Halts (steps · cs e) o

theorem Steps.unique {cs : List Command} {e : Engine} {o o' : Outcome Engine}
    (h : Steps cs e o) (h' : Steps cs e o') : o = o' :=
  Halts.unique h (steady_steps cs e) h'

theorem steps_nil {e : Engine} {o : Outcome Engine} : Steps [] e o ↔ o = .ok e := halts_some

theorem steps_cons {c : Command} {cs : List Command} {e : Engine} {o : Outcome Engine} :
    Steps (c :: cs) e o ↔ Then (Step c e) (Steps cs) o := by
  simp only [Steps, steps_cons_eq]
  exact halts_chain (steady_step c e) (steady_steps cs)

theorem steps_append {cs ds : List Command} {e : Engine} {o : Outcome Engine} :
    Steps (cs ++ ds) e o ↔ Then (Steps cs e) (Steps ds) o := by
  simp only [Steps, steps_append_eq]
  exact halts_chain (steady_steps cs e) (steady_steps ds)

theorem steps_singleton {c : Command} {e : Engine} {o : Outcome Engine} :
    Steps [c] e o ↔ Step c e o := by
  rw [steps_cons]
  constructor
  · intro h
    cases h with
    | fault h => exact h
    | ok h hnext => exact steps_nil.mp hnext ▸ h
  · intro h
    cases o with
    | ok e' => exact .ok h (steps_nil.mpr rfl)
    | fault cause e' => exact .fault h

section Step

variable {c : Command} {e e' : Engine} {o : Outcome Engine}

theorem step_of_settle (h : e.record c = .ok e') (hs : e'.skeleton.scanned = none) :
    Step c e o ↔ Halts (settle · e') o := by
  simp only [Step, step, h, Skeleton.isScanning, hs, Option.isSome_none, Bool.false_eq_true,
    if_false]

theorem step_of_scanning (h : e.record c = .ok e') (hs : e'.skeleton.scanned ≠ none) :
    Step c e o ↔ o = .ok e' := by
  simp only [Step, step, h, Skeleton.isScanning, Option.isSome_iff_ne_none.mpr hs, if_true]
  exact halts_some

end Step

/-! ## Between two commands -/

/-- All recorded commands are done, with this progress. -/
structure Resting (limit : Option Nat) (commands : List Command) (p : Progress)
    (e : Engine) : Prop where
  shape : e.skeleton.SameShape (Skeleton.recorded commands)
  scanned : e.skeleton.scanned = none
  limit_eq : e.limit = limit
  progress_eq : e.progress = p

/-- The rest of this loop's body is passed over. -/
structure Scanning (limit : Option Nat) (commands : List Command) (l : Nat) (p : Progress)
    (e : Engine) : Prop where
  shape : e.skeleton.SameShape (Skeleton.recorded commands)
  scanned : e.skeleton.scanned = some l
  limit_eq : e.limit = limit
  progress_eq : e.progress = p

variable {limit : Option Nat} {commands pre body : List Command} {p : Progress} {e : Engine}
  {c o : Command} {l : Nat}

theorem record_eq_ok (h : c.kind = .loopClose → e.skeleton.openLoops ≠ []) :
    e.record c = .ok { e with skeleton := (e.skeleton.record c).state } := by
  obtain ⟨device, skeleton, limit, executed⟩ := e
  exact congrArg (Outcome.map fun s => Engine.mk device s limit executed)
    (Skeleton.record_eq_ok h)

/-- A command that closes nothing but open loops is recorded, and is due. -/
theorem Resting.record (h : Resting limit commands p e)
    (hopen : c.kind = .loopClose → (Skeleton.recorded commands).openLoops ≠ []) :
    ∃ e', e.record c = .ok e' ∧ DueAt limit (commands ++ [c]) commands p e' := by
  have hopen' : c.kind = .loopClose → e.skeleton.openLoops ≠ [] := by
    rw [h.shape.openLoops]
    exact hopen
  have hscan : c.kind = .loopClose → e.skeleton.scanned ≠ e.skeleton.innermost := by
    intro hk hs
    rw [h.scanned, Skeleton.innermost, eq_comm, List.head?_eq_none_iff] at hs
    exact hopen' hk hs
  have hshape : (e.skeleton.record c).state.SameShape (Skeleton.recorded (commands ++ [c])) := by
    rw [Skeleton.recorded_concat]
    exact h.shape.record c
  have hseat : e.skeleton.size + Skeleton.lead c = Skeleton.seat commands c := by
    rw [h.shape.size, Skeleton.size_recorded, Skeleton.seat]
  have hcommand : (e.skeleton.record c).state.command? (Skeleton.seat commands c) = some c :=
    (hshape.command? _).trans (Skeleton.command?_seat_concat commands c)
  refine ⟨_, record_eq_ok hopen', hshape, ?_, ⟨[c], rfl, ?_⟩, h.limit_eq, h.progress_eq⟩
  · exact (Skeleton.scanned_record hscan).trans h.scanned
  · dsimp only
    rw [Skeleton.pending_record hscan, hseat]
    exact Skeleton.target?_of_command? hcommand

/-- Nothing is due behind the last command. -/
theorem DueAt.rest (h : DueAt limit commands commands p e) :
    Halts (settle · e) (.ok e) ∧ Resting limit commands p e := by
  obtain ⟨rest, hrest, hdue⟩ := h.due
  obtain rfl : rest = [] := List.self_eq_append_right.mp hrest
  exact ⟨settle_of_idle (turn_idle (take_of_not_due hdue)),
    h.shape, h.scanned, h.limit_eq, h.progress_eq⟩

/-- The same kind of ending with the same progress, and rest behind the commands. -/
abbrev Agrees (limit : Option Nat) (commands : List Command) :
    Outcome Engine → Outcome Progress → Prop :=
  Rel (fun e p => Resting limit commands p e) fun e p => e.progress = p

theorem DueAt.matches_rest (h : DueAt limit commands commands p e) :
    Matches (Agrees limit commands) (Halts (settle · e)) (· = .ok p) :=
  .of_halts h.rest.1 (steady_settle e) (.ok h.rest.2)

/-- The due command is performed as in an evaluation, and then something else is due. -/
theorem DueAt.matches_act {post : List Command} {okay : Engine → Progress → Prop}
    {next : Progress → Outcome Progress → Prop} (h : DueAt limit commands pre p e)
    (hc : commands = pre ++ c :: post)
    (hnext : ∀ p', p.act limit c = .ok p' →
      Matches (Rel okay fun e p => e.progress = p)
        (Halts (settle · ⟨p'.device, passed c p'.device.tape (taken e pre c), limit, p'.executed⟩))
        (next p')) :
    Matches (Rel okay fun e p => e.progress = p) (Halts (settle · e))
      (Then (· = p.act limit c) next) := by
  have hsteady := steady_settle e
  cases ha : p.act limit c with
  | ok p' =>
      refine (hnext p' ha).congr (fun o => ?_) fun o => then_ok
      exact (h.continues hc ha).halts_iff hsteady o
  | fault cause p' =>
      have hfault := h.halts_fault hc ha
      exact (Matches.of_halts hfault hsteady (.fault rfl)).congr (fun _ => Iff.rfl)
        fun _ => then_fault

/-! ## One more command -/

theorem Resting.step_act {action : Action} (h : Resting limit commands p e)
    (hk : c.kind = .simple action) :
    Matches (Agrees limit (commands ++ [c])) (Step c e) (· = p.act limit c) := by
  have hclose : c.kind ≠ .loopClose := by simp [hk]
  obtain ⟨e', hrecord, hdue⟩ := h.record (c := c) fun hk => absurd hk hclose
  have hm : Matches (Agrees limit (commands ++ [c])) (Halts (settle · e'))
      (Then (· = p.act limit c) fun p o => o = .ok p) := by
    refine hdue.matches_act rfl fun p' _ => ?_
    simp only [passed, hk]
    exact (hdue.next rfl hclose p').matches_rest
  exact hm.congr (fun _ => step_of_settle hrecord hdue.scanned) fun _ => by rw [then_done]

/-- Inside or in front of the body, according to the current cell. -/
structure Opened (limit : Option Nat) (pre : List Command) (o : Command) (e : Engine)
    (p : Progress) : Prop where
  entered : p.device.tape.current ≠ 0 → Resting limit (pre ++ [o]) p e
  left : p.device.tape.current = 0 → Scanning limit (pre ++ [o]) (Skeleton.nodeCount pre) p e

/-- A loop that is left right behind its opening command is scanned. -/
theorem DueAt.scan (h : DueAt limit (pre ++ [o]) pre p e) (ho : o.kind = .loopOpen)
    (p' : Progress) :
    Scanning limit (pre ++ [o]) (Skeleton.nodeCount pre) p'
        ⟨p'.device, (taken e pre o).leaveLoop, limit, p'.executed⟩ ∧
      (taken e pre o).leaveLoop.pending = none := by
  have hshape := h.sameShape_taken o
  have hlast : (taken e pre o).last = some (Skeleton.seat pre o) := rfl
  have hown : (taken e pre o).ownLoop? (Skeleton.seat pre o) = some (Skeleton.nodeCount pre) := by
    rw [hshape.ownLoop?, Skeleton.ownLoop?_opening ho]
  have hloop : (taken e pre o).next? (Skeleton.nodeCount pre) = none := by
    rw [hshape.next?, Skeleton.next?_opening ho]
  have hnext : (taken e pre o).next? (Skeleton.seat pre o) = none := by
    rw [hshape.next?, Skeleton.next?_seat (by simp [ho])]
    rfl
  refine ⟨⟨(Skeleton.sameShape_leaveLoop _).trans hshape, ?_, rfl, rfl⟩, ?_⟩ <;>
    simp only [Skeleton.leaveLoop, hlast, hown, hloop, hnext, Option.isNone_none, if_true]

theorem Resting.step_open (h : Resting limit pre p e) (ho : o.kind = .loopOpen) :
    Matches (Rel (Opened limit pre o) fun e p => e.progress = p) (Step o e)
      (· = p.act limit o) := by
  have hclose : o.kind ≠ .loopClose := by simp [ho]
  obtain ⟨e', hrecord, hdue⟩ := h.record (c := o) fun hk => absurd hk hclose
  have hm : Matches (Rel (Opened limit pre o) fun e p => e.progress = p) (Halts (settle · e'))
      (Then (· = p.act limit o) fun p o => o = .ok p) := by
    refine hdue.matches_act rfl fun p' _ => ?_
    simp only [passed, ho]
    by_cases hz : p'.device.tape.current = 0
    · rw [if_pos hz]
      obtain ⟨hscan, hpending⟩ := hdue.scan ho p'
      have hidle : Halts (settle · ⟨p'.device, (DueAt.taken e' pre o).leaveLoop, limit,
          p'.executed⟩) (.ok _) :=
        settle_of_idle (turn_idle (take_of_not_due (by rw [hpending]; rfl)))
      have hopened : Opened limit pre o
          ⟨p'.device, (DueAt.taken e' pre o).leaveLoop, limit, p'.executed⟩ p' :=
        ⟨fun hne => absurd hz hne, fun _ => hscan⟩
      exact .of_halts hidle (steady_settle _) (.ok hopened)
    · rw [if_neg hz]
      obtain ⟨hends, hrest⟩ := (hdue.next rfl hclose p').rest
      have hopened : Opened limit pre o
          ⟨p'.device, DueAt.taken e' pre o, limit, p'.executed⟩ p' :=
        ⟨fun _ => hrest, fun hz' => absurd hz' hz⟩
      exact .of_halts hends (steady_settle _) (.ok hopened)
  exact hm.congr (fun _ => step_of_settle hrecord hdue.scanned) fun _ => by rw [then_done]

/-- Recording the end of an entered loop repeats the loop until it is left. -/
theorem Resting.step_close {t : Script} (ht : t.Proper)
    (h : Resting limit (pre ++ o :: t.toCommands) p e) (ho : o.kind = .loopOpen)
    (hc : c.kind = .loopClose) :
    Matches (Agrees limit (pre ++ o :: t.toCommands ++ [c])) (Step c e)
      (Then (· = p.act limit c) (Evals limit (loop o t c done))) := by
  have hbody := ht.balanced
  have hopen := Skeleton.openLoops_body ho hbody pre
  obtain ⟨e', hrecord, hdue⟩ := h.record (c := c) fun _ => by
    rw [hopen]
    exact List.cons_ne_nil _ _
  have htree : (loop o t c done).Proper := .loop ho hc ht .done
  have hwhole : pre ++ (loop o t c done).toCommands = pre ++ o :: t.toCommands ++ [c] := by
    simp [toCommands]
  refine Matches.congr (hdue.matches_act rfl fun p' _ => ?_)
    (fun _ => step_of_settle hrecord hdue.scanned) fun _ => Iff.rfl
  simp only [passed, hc]
  have hback := hdue.back ho hc hbody rfl p'
  have hreplays := replays_settle limit (pre ++ o :: t.toCommands ++ [c])
  refine Matches.congr (hreplays.matches_then htree
    (hwhole ▸ List.prefix_rfl) hback ?_ ?_) (fun _ => Iff.rfl) fun _ => by rw [then_done]
  · rintro cause p r ⟨e, rfl, hp⟩
    exact .fault hp
  · intro p s hat
    rw [hwhole] at hat
    exact hat.matches_rest

/-! ## Passing over the body of a loop -/

/-- While a loop is scanned its commands are recorded only. -/
theorem Scanning.step (h : Scanning limit commands l p e)
    (hclose : c.kind = .loopClose →
      ∃ l', (Skeleton.recorded commands).innermost = some l' ∧ l ≠ l') :
    ∃ e', (∀ o, Step c e o ↔ o = .ok e') ∧ Scanning limit (commands ++ [c]) l p e' := by
  have hopen : c.kind = .loopClose → e.skeleton.openLoops ≠ [] := by
    intro hk ho
    obtain ⟨l', hl', -⟩ := hclose hk
    rw [← h.shape.innermost, Skeleton.innermost, ho] at hl'
    cases hl'
  have hscan : c.kind = .loopClose → e.skeleton.scanned ≠ e.skeleton.innermost := by
    intro hk hs
    obtain ⟨l', hl', hne⟩ := hclose hk
    rw [h.scanned, h.shape.innermost, hl'] at hs
    exact hne (Option.some.inj hs)
  have hscanned : (e.skeleton.record c).state.scanned = some l :=
    (Skeleton.scanned_record hscan).trans h.scanned
  refine ⟨_, fun o => step_of_scanning (record_eq_ok hopen) ?_, ?_, hscanned, h.limit_eq,
    h.progress_eq⟩
  · exact hscanned ▸ Option.some_ne_none l
  · rw [Skeleton.recorded_concat]
    exact h.shape.record c

theorem Scanning.steps (h : Scanning limit commands l p e) (inner : List Nat) {outer : List Nat}
    (hopen : (Skeleton.recorded commands).openLoops = inner ++ l :: outer) {cs : List Command}
    {d : Nat} (hd : Bracket.depthFrom? inner.length (Bracket.ofCommands cs) = some d) :
    ∃ e', (∀ o, Steps cs e o ↔ o = .ok e') ∧ Scanning limit (commands ++ cs) l p e' := by
  induction cs using List.reverseRecOn generalizing d with
  | nil => exact ⟨e, fun _ => steps_nil, by rwa [List.append_nil]⟩
  | append_singleton cs c ih =>
      rw [Bracket.ofCommands_append, Bracket.depthFrom?_append] at hd
      obtain ⟨d', hd', hlast⟩ := Option.bind_eq_some_iff.mp hd
      obtain ⟨e₁, hsteps, hscan⟩ := ih hd'
      obtain ⟨inner', hlength, hopen'⟩ := Skeleton.openLoops_append inner hd' hopen
      obtain ⟨e₂, hstep, hscan'⟩ := hscan.step (c := c) <| by
        intro hk
        rw [Bracket.ofCommands_cons, hk, ← hlength] at hlast
        cases inner' with
        | nil => cases hlast
        | cons l' inner' =>
            refine ⟨l', by rw [Skeleton.innermost, hopen']; rfl, ?_⟩
            have hsorted := (Skeleton.linked_recorded (commands ++ cs)).open_sorted
            rw [hopen', List.cons_append, List.pairwise_cons] at hsorted
            exact Nat.ne_of_lt (hsorted.1 l (by simp))
      refine ⟨e₂, fun o => ?_, by rwa [← List.append_assoc]⟩
      rw [steps_append, then_congr hsteps fun _ _ => steps_singleton, then_ok, hstep]

/-- The end of the scanned loop is the end of the scan. -/
theorem Scanning.step_close (h : Scanning limit (pre ++ o :: body) (Skeleton.nodeCount pre) p e)
    (ho : o.kind = .loopOpen) (hc : c.kind = .loopClose)
    (hbody : Bracket.Balanced (Bracket.ofCommands body)) :
    ∃ e', (∀ o, Step c e o ↔ o = .ok e') ∧ Resting limit (pre ++ o :: body ++ [c]) p e' := by
  have hopen := Skeleton.openLoops_body ho hbody pre
  have hrecord := record_eq_ok (c := c) (e := e) fun _ => by
    rw [h.shape.openLoops, hopen]
    exact List.cons_ne_nil _ _
  have hends : (e.skeleton.record c).state.scanned = none ∧
      (e.skeleton.record c).state.pending = none := by
    simp only [Skeleton.record, hc]
    refine Skeleton.sealLoop_scanned (h.scanned.trans ?_) (h.scanned ▸ Option.some_ne_none _)
    rw [Skeleton.innermost_push, h.shape.innermost, Skeleton.innermost, hopen]
    rfl
  have hrest : Resting limit (pre ++ o :: body ++ [c]) p
      { e with skeleton := (e.skeleton.record c).state } := by
    refine ⟨?_, hends.1, h.limit_eq, h.progress_eq⟩
    rw [Skeleton.recorded_concat]
    exact h.shape.record c
  have hidle : Halts (settle · { e with skeleton := (e.skeleton.record c).state }) (.ok _) :=
    settle_of_idle (turn_idle (take_of_not_due (by rw [hends.2]; rfl)))
  exact ⟨_, fun o => (step_of_settle hrecord hends.1).trans (hidle.iff_eq (steady_settle _)), hrest⟩

/-! ## The beginning of a script -/

/-- An engine that was fed the first `k` commands of a tree. -/
structure Fed (limit : Option Nat) (pre : List Command) (t : Script) (k : Nat) (e : Engine)
    (p : Progress) : Prop where
  progress_eq : e.progress = p
  resting : k = t.length → Resting limit (pre ++ t.toCommands) p e

/-- Feeding the commands behind `pre` does what evaluating the tree up to there does. -/
abbrev Feeds (limit : Option Nat) (pre : List Command) (t : Script) (k : Nat) (e : Engine)
    (cs : List Command) (evaluated : Outcome Progress → Prop) : Prop :=
  Matches (Rel (Fed limit pre t k) fun e p => e.progress = p) (Steps cs e) evaluated

section Feed

variable {body' rest : Script} {k : Nat}

theorem Resting.feeds_zero (h : Resting limit pre p e) (t : Script) :
    Feeds limit pre t 0 e [] (EvalsTo limit t 0 p) := by
  refine (Matches.single (.ok ⟨h.progress_eq, fun hlength => ?_⟩)).congr (fun _ => steps_nil)
    fun _ => evalsTo_zero
  rw [List.length_eq_zero_iff.mp hlength.symm, List.append_nil]
  exact h

/-- Feeding the rest of a tree completes the tree. -/
theorem Feeds.of_rest {pre' cs : List Command} {t : Script} {j : Nat}
    {evaluated : Outcome Progress → Prop} (h : Feeds limit pre' rest j e cs evaluated)
    (hcommands : pre' ++ rest.toCommands = pre ++ t.toCommands)
    (hlength : k = t.length → j = rest.length) : Feeds limit pre t k e cs evaluated := by
  refine h.mono fun _ _ hr => hr.imp (fun e p hfed => ?_) fun _ _ hp => hp
  exact ⟨hfed.progress_eq, fun hk => hcommands ▸ hfed.resting (hlength hk)⟩

variable (ho : o.kind = .loopOpen) (hc : c.kind = .loopClose) (ht : body'.Proper)
include ho hc ht

/-- Behind a loop that is left, all commands up to its end are passed over. -/
theorem Scanning.feeds (h : Scanning limit (pre ++ [o]) (Skeleton.nodeCount pre) p e)
    (ih : ∀ e', Resting limit (pre ++ o :: body'.toCommands ++ [c]) p e' →
      Feeds limit (pre ++ o :: body'.toCommands ++ [c]) rest (k - (body'.length + 1)) e'
        (rest.toCommands.take (k - (body'.length + 1)))
        (EvalsTo limit rest (k - (body'.length + 1)) p)) :
    Feeds limit pre (loop o body' c rest) (k + 1) e
      ((body'.toCommands ++ c :: rest.toCommands).take k)
      (EvalsTo limit rest (k - (body'.length + 1)) p) := by
  have hopen := Skeleton.openLoops_opening ho pre
  by_cases hin : k ≤ body'.length
  · have hbalanced := ht.balanced
    rw [Bracket.Balanced, ← List.take_append_drop k body'.toCommands,
      Bracket.ofCommands_append] at hbalanced
    obtain ⟨d, hd⟩ := Bracket.exists_depthFrom?_of_append hbalanced
    obtain ⟨e', hsteps, hscan⟩ := h.steps [] hopen hd
    have hfed : Fed limit pre (loop o body' c rest) (k + 1) e' p := by
      refine ⟨hscan.progress_eq, fun hlength => ?_⟩
      rw [length_loop] at hlength
      omega
    rw [take_loop_of_le c hin, Nat.sub_eq_zero_of_le (Nat.le_succ_of_le hin)]
    exact (Matches.single (.ok hfed)).congr hsteps fun _ => evalsTo_zero
  · obtain ⟨e₁, hsteps, hscan⟩ := h.steps [] hopen ht.balanced
    rw [← List.append_cons] at hscan
    obtain ⟨e₂, hstep, hrest⟩ := hscan.step_close ho hc ht.balanced
    have hwhole := (ih e₂ hrest).of_rest (k := k + 1) (t := loop o body' c rest)
      (append_loop pre o c body' rest).symm fun hlength => by
        rw [length_loop] at hlength
        omega
    rw [take_loop_of_lt c (Nat.lt_of_not_le hin)]
    refine hwhole.congr (fun o => ?_) fun _ => Iff.rfl
    rw [steps_append, then_congr hsteps fun _ _ => steps_cons, then_ok,
      then_congr hstep fun _ _ => Iff.rfl, then_ok]

/-- Inside a loop that is entered, its body is fed, and then the loop is repeated. -/
theorem feeds_body
    (ihbody : ∀ {j : Nat}, j ≤ body'.length → Feeds limit (pre ++ [o]) body' j e
      (body'.toCommands.take j) (EvalsTo limit body' j p))
    (ih : ∀ {p : Progress} {e' : Engine}, Resting limit (pre ++ o :: body'.toCommands ++ [c]) p e' →
      Feeds limit (pre ++ o :: body'.toCommands ++ [c]) rest (k - (body'.length + 1)) e'
        (rest.toCommands.take (k - (body'.length + 1)))
        (EvalsTo limit rest (k - (body'.length + 1)) p)) :
    Feeds limit pre (loop o body' c rest) (k + 1) e
      ((body'.toCommands ++ c :: rest.toCommands).take k)
      (fun o' => if k ≤ body'.length then EvalsTo limit body' k p o'
        else Then (Evals limit body' p) (fun p =>
          Then (· = p.act limit c) fun p =>
            Then (Evals limit (loop o body' c done) p)
              (EvalsTo limit rest (k - (body'.length + 1)))) o') := by
  by_cases hin : k ≤ body'.length
  · rw [take_loop_of_le c hin]
    simp only [if_pos hin]
    refine (ihbody hin).mono fun _ _ hr => hr.imp (fun e p hfed => ?_) fun _ _ hp => hp
    refine ⟨hfed.progress_eq, fun hlength => ?_⟩
    rw [length_loop] at hlength
    omega
  · have hbody := ihbody (Nat.le_refl _)
    rw [length, List.take_length] at hbody
    have hclose {e₁ : Engine} {p₁ : Progress}
        (hrest : Resting limit (pre ++ o :: body'.toCommands) p₁ e₁) :=
      (hrest.step_close ht ho hc).andThen fun e₂ p₂ hrest' =>
        (ih hrest').of_rest (k := k + 1) (append_loop pre o c body' rest).symm fun hlength => by
          rw [length_loop] at hlength
          omega
    have hall := hbody.andThen fun e₁ p₁ hfed =>
      hclose (by simpa using hfed.resting rfl)
    rw [take_loop_of_lt c (Nat.lt_of_not_le hin)]
    simp only [if_neg hin]
    refine hall.congr (fun _ => ?_) fun _ => ?_
    · rw [steps_append]
      exact then_congr (fun _ => Iff.rfl) fun _ _ => steps_cons
    · exact then_congr (fun o => (evalsTo_length body' p o).symm) fun _ _ => then_assoc.symm

end Feed

/-- Feeding the first `k` commands does what evaluating up to there does. -/
theorem Resting.feeds {t : Script} {k : Nat} (h : Resting limit pre p e) (ht : t.Proper)
    (hk : k ≤ t.length) :
    Feeds limit pre t k e (t.toCommands.take k) (EvalsTo limit t k p) := by
  induction ht generalizing pre p e k with
  | done =>
      obtain rfl := Nat.le_zero.mp hk
      exact h.feeds_zero done
  | @act c rest action hkind hrest ih =>
      cases k with
      | zero => exact h.feeds_zero _
      | succ k =>
          have hle : k ≤ rest.length := by simpa using hk
          refine Matches.congr ((h.step_act hkind).andThen fun e' p' hrest' => ?_)
            (fun _ => steps_cons) fun _ => Iff.rfl
          exact (ih hrest' hle).of_rest (by simp [toCommands]) (by simp)
  | @loop o c body rest ho hc hbody hrest ihbody ih =>
      cases k with
      | zero => exact h.feeds_zero _
      | succ k =>
          have hle : k - (body.length + 1) ≤ rest.length := by
            rw [length_loop] at hk
            omega
          refine Matches.congr ((h.step_open ho).andThen fun e' p' hopened => ?_)
            (fun _ => steps_cons) fun _ => Iff.rfl
          by_cases hz : p'.device.tape.current = 0
          · simp only [if_pos hz]
            exact (hopened.left hz).feeds ho hc hbody fun e' h' => ih h' hle
          · simp only [if_neg hz]
            exact feeds_body ho hc hbody (ihbody (hopened.entered hz)) fun h' => ih h' hle

end Engine

end TapeScript
