import TapeScript.Proofs.Script.Replay
import TapeScript.Proofs.TwoPass.Instructions
import TapeScript.Proofs.TwoPass.Positions

/-! # Running with a pointer that jumps

The second pass replays the commands of a balanced program. A closing bracket over a cell
that is not zero jumps behind its partner, so there the pointer stands for the partner. -/

namespace TapeScript.TwoPass

open Outcome Script

namespace State

/-- Executes instructions up to the first moment when the pointer is at the bound or behind
it, or leaves the program; none if the fuel does not last. -/
def runTo (program : Array UInt8) (table : JumpTable) (bound : Nat) :
    Nat → State → Option (Except Failure State)
  | 0, _ => none
  | fuel + 1, s =>
    if bound ≤ s.pointer then some (.ok s)
    else
      match program[s.pointer]? with
      | none => some (.ok s)
      | some byte =>
        match s.next table (.ofByte byte) with
        | .error failure => some (.error failure)
        | .ok s => runTo program table bound fuel s

theorem runTo_size (program : Array UInt8) (table : JumpTable) (fuel : Nat) (s : State) :
    runTo program table program.size fuel s = runWith program table fuel s := by
  induction fuel generalizing s with
  | zero => rfl
  | succ fuel ih =>
      rw [runTo, runWith]
      by_cases hs : program.size ≤ s.pointer
      · rw [if_pos hs, Array.getElem?_eq_none hs]
      · rw [if_neg hs]
        cases program[s.pointer]? with
        | none => rfl
        | some byte =>
            dsimp only
            cases s.next table (.ofByte byte) with
            | error failure => rfl
            | ok s' => exact ih s'

theorem steady_runTo (program : Array UInt8) (table : JumpTable) (bound : Nat) (s : State) :
    Steady (runTo program table bound · s) := by
  intro fuel
  induction fuel generalizing s with
  | zero =>
      intro r h
      cases h
  | succ fuel ih =>
      intro r h
      dsimp only at h ih ⊢
      rw [runTo] at h ⊢
      by_cases hs : bound ≤ s.pointer
      · rwa [if_pos hs] at h ⊢
      · rw [if_neg hs] at h ⊢
        cases hbyte : program[s.pointer]? with
        | none => rwa [hbyte] at h
        | some byte =>
            rw [hbyte] at h
            dsimp only at h ⊢
            cases hnext : s.next table (.ofByte byte) with
            | error failure => rwa [hnext] at h
            | ok s' =>
                rw [hnext] at h
                exact ih s' h

variable {program : Array UInt8} {table : JumpTable} {bound : Nat} {s s' : State} {byte : UInt8}

theorem continues_of_next (hs : s.pointer < bound) (hbyte : program[s.pointer]? = some byte)
    (hnext : s.next table (.ofByte byte) = .ok s') :
    Continues (runTo program table bound) 1 s s' := by
  intro fuel
  rw [Nat.add_comm, runTo, if_neg (Nat.not_le.mpr hs), hbyte]
  dsimp only
  rw [hnext]

theorem halts_of_next {failure : Failure} (hs : s.pointer < bound)
    (hbyte : program[s.pointer]? = some byte)
    (hnext : s.next table (.ofByte byte) = .error failure) :
    Halts (runTo program table bound · s) (.error failure) := by
  refine ⟨1, ?_⟩
  dsimp only
  rw [runTo, if_neg (Nat.not_le.mpr hs), hbyte]
  dsimp only
  rw [hnext]

theorem halts_of_le (hs : bound ≤ s.pointer) : Halts (runTo program table bound · s) (.ok s) :=
  ⟨1, by dsimp only; rw [runTo, if_pos hs]⟩

end State

/-- With the pointer here, the command behind `pre` is due: the pointer is on its way to it,
or it is an opening bracket and the pointer stands on its partner. -/
inductive Stands (program : List UInt8) (table : JumpTable) (bound : Nat) (pre : List Command) :
    Nat → Prop
  | here {i : Nat} (hpre : commandsBefore program i = pre) : Stands program table bound pre i
  | partner {i j : Nat} {o c : Command} (hpre : commandsBefore program i = pre)
      (hi : CommandAt program i o) (ho : o.kind = .loopOpen) (hj : CommandAt program j c)
      (hc : c.kind = .loopClose) (hij : table[i]? = some (some j))
      (hji : table[j]? = some (some i)) (hbi : i < bound) (hbj : j < bound) :
      Stands program table bound pre j

/-- Of the program the commands `pre` are done, on a device that the state mirrors. -/
structure At (n : Nat) (written : Array UInt8) (program : List UInt8) (table : JumpTable)
    (bound : Nat) (pre : List Command) (p : Progress) (s : State) : Prop where
  stands : Stands program table bound pre s.pointer
  mirrors : Mirrors n written p.device s

/-- The run fails for this cause. -/
def FailsWith (n : Nat) (cause : Fault) (_ : Progress) (r : Except Failure State) : Prop :=
  ∃ failure, r = .error failure ∧ SameCause n failure cause

section Program

variable {n : Nat} {written : Array UInt8} {program : List UInt8} {table : JumpTable}
  {bound : Nat} {pre body post : List Command} {p p' : Progress} {s : State} {o c : Command}

theorem ofByte_of_find? {byte : UInt8} (h : Dialect.builtin.find? byte = none) :
    Instruction.ofByte byte = .nothing := by
  rw [Dialect.find?_builtin] at h
  cases hi : Instruction.ofByte byte with
  | nothing => rfl
  | bracket side => cases side <;> (rw [hi] at h; cases h)
  | increment | decrement | right | left | output | input => rw [hi] at h; cases h

theorem continues_comment (table : JumpTable) {byte : UInt8} (hlt : s.pointer < bound)
    (hbyte : program[s.pointer]? = some byte) (hfind : Dialect.builtin.find? byte = none) :
    Continues (State.runTo program.toArray table bound) 1 s (s.continueBehind s.pointer) := by
  refine State.continues_of_next hlt ((List.getElem?_toArray ..).trans hbyte) ?_
  rw [ofByte_of_find? hfind, State.next]

/-- The pointer goes past bytes that are no commands. -/
theorem exists_continues_comments (table : JumpTable) {i : Nat} (hi : s.pointer ≤ i)
    (hbound : i ≤ bound) (hlength : i ≤ program.length)
    (hsame : commandsBefore program s.pointer = commandsBefore program i) :
    ∃ m, Continues (State.runTo program.toArray table bound) m s { s with pointer := i } := by
  obtain ⟨k, rfl⟩ := Nat.exists_eq_add_of_le hi
  induction k generalizing s with
  | zero => exact ⟨0, .refl _ _⟩
  | succ k ih =>
      have hlt : s.pointer < program.length := by omega
      have hbyte : program[s.pointer]? = some program[s.pointer] := List.getElem?_eq_getElem hlt
      have hfind := find?_eq_none (by omega) hbyte hsame
      have hstep := continues_comment table (show s.pointer < bound by omega) hbyte hfind
      have hpre : commandsBefore program (s.continueBehind s.pointer).pointer =
          commandsBefore program s.pointer := by
        rw [State.continueBehind, commandsBefore_succ hbyte, hfind, Option.toList_none,
          List.append_nil]
      have hend : (s.continueBehind s.pointer).pointer + k = s.pointer + (k + 1) := by
        simp only [State.continueBehind]
        omega
      rw [← hend] at hbound hlength hsame ⊢
      obtain ⟨m, hm⟩ := ih (Nat.le_add_right _ _) hbound hlength (hpre.trans hsame)
      exact ⟨1 + m, hstep.trans hm⟩

/-- The pointer goes to the next command. -/
theorem exists_continues_here (table : JumpTable) (hpre : commandsBefore program s.pointer = pre)
    (hbound : commandsBefore program bound = pre ++ c :: post) :
    ∃ m i, Continues (State.runTo program.toArray table bound) m s { s with pointer := i } ∧
      i < bound ∧ CommandAt program i c ∧ commandsBefore program i = pre := by
  obtain ⟨i, hib, hi, hipre⟩ := exists_commandAt hbound
  have hle : s.pointer ≤ i := by
    have hbehind : commandsBefore program (i + 1) =
        commandsBefore program s.pointer ++ c :: [] := by
      rw [hi.commandsBefore_succ, hipre, hpre]
    exact Nat.le_of_lt_succ (lt_of_commandsBefore hbehind)
  obtain ⟨m, hm⟩ := exists_continues_comments table hle (Nat.le_of_lt hib)
    (Nat.le_of_lt hi.lt_length) (hpre.trans hipre.symm)
  exact ⟨m, i, hm, hib, hi, hipre⟩

/-! ## Single commands -/

theorem act_simple {action : Action} (hk : c.kind = .simple action) (p : Progress) :
    p.act none c = (action.run p.device).map fun device => ⟨device, p.executed + 1⟩ := by
  simp only [Progress.act, Progress.charge, hk]

theorem act_bracket (hk : ∀ action, c.kind ≠ .simple action) (p : Progress) :
    p.act none c = .ok { p with executed := p.executed + 1 } := by
  simp only [Progress.act, Progress.charge]
  cases h : c.kind with
  | simple action => exact absurd h (hk action)
  | loopOpen => rfl
  | loopClose => rfl

theorem act_opening (ho : o.kind = .loopOpen) (p : Progress) :
    p.act none o = .ok { p with executed := p.executed + 1 } :=
  act_bracket (by simp [ho]) p

theorem act_closing (hc : c.kind = .loopClose) (p : Progress) :
    p.act none c = .ok { p with executed := p.executed + 1 } :=
  act_bracket (by simp [hc]) p

theorem CommandAt.exists_bracket {i : Nat} {side : Bracket} (h : CommandAt program i c)
    (hc : Bracket.ofCommand? c = some side) :
    ∃ byte, program[i]? = some byte ∧ Instruction.ofByte byte = .bracket side := by
  obtain ⟨byte, hbyte, hfind⟩ := h
  rw [Dialect.find?_builtin] at hfind
  exact ⟨byte, hbyte, Instruction.eq_bracket hfind hc⟩

theorem ofCommand?_opening (ho : o.kind = .loopOpen) : Bracket.ofCommand? o = some .opening := by
  rw [Bracket.ofCommand?, ho]

theorem ofCommand?_closing (hc : c.kind = .loopClose) : Bracket.ofCommand? c = some .closing := by
  rw [Bracket.ofCommand?, hc]

/-- Where a pointer that stands for another command may be, an opening command comes next. -/
theorem Stands.here_of_ne {i : Nat} (h : Stands program table bound pre i)
    (hbound : commandsBefore program bound = pre ++ c :: post) (hk : c.kind ≠ .loopOpen) :
    commandsBefore program i = pre := by
  cases h with
  | here hpre => exact hpre
  | @partner i j o c' hpre hi ho _ _ _ _ _ _ =>
      obtain rfl := hi.eq (hpre ▸ hbound)
      exact absurd ho hk

/-! ## Brackets -/

section Bracket

variable {i j : Nat}

theorem next_opening_of_ne (hz : s.current ≠ 0) :
    s.next table (.bracket .opening) = .ok (s.continueBehind s.pointer) := by
  simp only [State.next, if_neg hz]

theorem next_opening_of_eq (hz : s.current = 0) (hpartner : table[s.pointer]? = some (some j)) :
    s.next table (.bracket .opening) = .ok (s.continueBehind j) := by
  simp only [State.next, if_pos hz, Array.getD_eq_getD_getElem?, hpartner, Option.getD_some]

theorem next_closing_of_eq (hz : s.current = 0) :
    s.next table (.bracket .closing) = .ok (s.continueBehind s.pointer) := by
  simp only [State.next, if_pos hz]

theorem next_closing_of_ne (hz : s.current ≠ 0) (hpartner : table[s.pointer]? = some (some i)) :
    s.next table (.bracket .closing) = .ok (s.continueBehind i) := by
  simp only [State.next, if_neg hz, Array.getD_eq_getD_getElem?, hpartner, Option.getD_some]

/-- A bracket is executed in one step. -/
theorem continues_bracket {side : Bracket} {s' : State} (hc : CommandAt program s.pointer c)
    (hside : Bracket.ofCommand? c = some side) (hlt : s.pointer < bound)
    (hnext : s.next table (.bracket side) = .ok s') :
    Continues (State.runTo program.toArray table bound) 1 s s' := by
  obtain ⟨byte, hbyte, hinstruction⟩ := hc.exists_bracket hside
  refine State.continues_of_next hlt ?_ (hinstruction.symm ▸ hnext)
  rw [List.getElem?_toArray, hbyte]

/-- Over a cell that is not zero the pointer goes into the body, from either bracket. -/
theorem At.enter (h : At n written program table bound pre p s)
    (hbound : commandsBefore program bound = pre ++ o :: post) (ho : o.kind = .loopOpen)
    (hz : p.device.tape.current ≠ 0) :
    ∃ m s', Continues (State.runTo program.toArray table bound) (m + 1) s s' ∧
      commandsBefore program s'.pointer = pre ++ [o] ∧ Mirrors n written p.device s' := by
  rw [← h.mirrors.current] at hz
  cases h.stands with
  | here hpre =>
      obtain ⟨m, i, hcont, hib, hi, hipre⟩ := exists_continues_here table hpre hbound
      have hstep : Continues (State.runTo program.toArray table bound) 1 { s with pointer := i }
          (State.continueBehind i { s with pointer := i }) :=
        continues_bracket hi (ofCommand?_opening ho) hib (next_opening_of_ne hz)
      refine ⟨m, _, hcont.trans hstep, ?_, (h.mirrors.withPointer i).withPointer (i + 1)⟩
      exact hipre ▸ hi.commandsBefore_succ
  | @partner i j o' c hpre hi ho' hj hc hij hji hbi hbj =>
      obtain rfl := hi.eq (hpre ▸ hbound)
      refine ⟨0, _, continues_bracket hj (ofCommand?_closing hc) hbj (next_closing_of_ne hz hji),
        hpre ▸ hi.commandsBefore_succ, h.mirrors.withPointer (i + 1)⟩

/-- Over a zero cell the pointer goes behind the loop, from either bracket. -/
theorem At.leave (hjump : jumpTable program = .ok table)
    (h : At n written program table bound pre p s)
    (hbound : commandsBefore program bound = pre ++ o :: post)
    (hpair : pre ++ o :: body ++ [c] <+: Dialect.builtin.commandsOf program)
    (ho : o.kind = .loopOpen) (hc : c.kind = .loopClose)
    (hbody : Bracket.Balanced (Bracket.ofCommands body)) (hz : p.device.tape.current = 0) :
    ∃ m s', Continues (State.runTo program.toArray table bound) (m + 1) s s' ∧
      commandsBefore program s'.pointer = pre ++ o :: body ++ [c] ∧
      Mirrors n written p.device s' := by
  rw [← h.mirrors.current] at hz
  obtain ⟨post', hpost⟩ := hpair
  rw [List.append_assoc, List.singleton_append, ← commandsBefore_length, eq_comm] at hpost
  obtain ⟨k, -, hk, hkpre⟩ := exists_commandAt hpost
  have hend : commandsBefore program (k + 1) = pre ++ o :: body ++ [c] :=
    hkpre ▸ hk.commandsBefore_succ
  cases h.stands with
  | here hpre =>
      obtain ⟨m, i, hcont, hib, hi, hipre⟩ := exists_continues_here table hpre hbound
      have hpartner := (partners hjump ho hc hbody hi hk (hipre.symm ▸ hkpre)).1
      have hstep : Continues (State.runTo program.toArray table bound) 1 { s with pointer := i }
          (State.continueBehind k { s with pointer := i }) :=
        continues_bracket hi (ofCommand?_opening ho) hib (next_opening_of_eq hz hpartner)
      exact ⟨m, _, hcont.trans hstep, hend, (h.mirrors.withPointer i).withPointer (k + 1)⟩
  | @partner i j o' c' hpre hi ho' hj hc' hij hji hbi hbj =>
      obtain rfl := hi.eq (hpre ▸ hbound)
      have hpartner := (partners hjump ho hc hbody hi hk (hpre.symm ▸ hkpre)).1
      obtain rfl : s.pointer = k := by
        rw [hij] at hpartner
        exact Option.some.inj (Option.some.inj hpartner)
      exact ⟨0, _, continues_bracket hj (ofCommand?_closing hc') hbj (next_closing_of_eq hz), hend,
        h.mirrors.withPointer (s.pointer + 1)⟩

/-- Behind the body the pointer stands on the partner of the opening bracket. -/
theorem At.back (hjump : jumpTable program = .ok table)
    (hbound : commandsBefore program bound = pre ++ o :: body ++ c :: post)
    (ho : o.kind = .loopOpen) (hc : c.kind = .loopClose)
    (hbody : Bracket.Balanced (Bracket.ofCommands body))
    (h : At n written program table bound (pre ++ o :: body) p s) :
    ∃ m s', Continues (State.runTo program.toArray table bound) m s s' ∧
      Stands program table bound pre s'.pointer ∧ Mirrors n written p.device s' := by
  have hpre := h.stands.here_of_ne hbound (by simp [hc])
  have hopen : commandsBefore program bound = pre ++ o :: (body ++ c :: post) := by
    simp [hbound]
  obtain ⟨m, j, hcont, hjb, hj, hjpre⟩ := exists_continues_here table hpre hbound
  obtain ⟨i, hib, hi, hipre⟩ := exists_commandAt hopen
  obtain ⟨hij, hji⟩ := partners hjump ho hc hbody hi hj (hipre.symm ▸ hjpre)
  exact ⟨m, _, hcont, .partner hipre hi ho hj hc hij hji hib hjb, h.mirrors.withPointer j⟩

end Bracket

/-! ## The whole run -/

/-- The pointer goes to a command that is no bracket, whose instruction follows its action. -/
theorem At.follows {action : Action} (h : At n written program table bound pre p s)
    (hbound : commandsBefore program bound = pre ++ c :: post) (hk : c.kind = .simple action) :
    ∃ m s₁ byte, Continues (State.runTo program.toArray table bound) m s s₁ ∧
      s₁.pointer < bound ∧ program.toArray[s₁.pointer]? = some byte ∧
      commandsBefore program (s₁.pointer + 1) = pre ++ [c] ∧
      Follows n written (s₁.pointer + 1) (s₁.next table (.ofByte byte)) (action.run p.device) := by
  have hpre := h.stands.here_of_ne hbound (by simp [hk])
  obtain ⟨m, i, hcont, hib, hi, hipre⟩ := exists_continues_here table hpre hbound
  obtain ⟨byte, hbyte, hfind⟩ := hi
  rw [Dialect.find?_builtin] at hfind
  have hnext := commandsBefore_succ hbyte
  rw [Dialect.find?_builtin, hfind, hipre] at hnext
  refine ⟨m, _, byte, hcont, hib, ?_, hnext, ?_⟩
  · rw [List.getElem?_toArray, hbyte]
  · exact (h.mirrors.withPointer i).follows_simple table hfind hk

theorem At.act {action : Action} (h : At n written program table bound pre p s)
    (hbound : commandsBefore program bound = pre ++ c :: post) (hk : c.kind = .simple action)
    (ha : p.act none c = .ok p') :
    ∃ m s', Continues (State.runTo program.toArray table bound) (m + 1) s s' ∧
      At n written program table bound (pre ++ [c]) p' s' := by
  obtain ⟨m, s₁, byte, hcont, hlt, hbyte, hpre, hfollows⟩ := h.follows hbound hk
  rw [act_simple hk] at ha
  cases hrun : action.run p.device with
  | fault cause d => rw [hrun] at ha; cases ha
  | ok d =>
      rw [hrun] at ha hfollows
      obtain rfl := Outcome.ok.inj ha
      generalize hnext : s₁.next table (.ofByte byte) = r at hfollows
      cases hfollows with
      | ok hposition hmirrors =>
          have hstep := State.continues_of_next hlt hbyte hnext
          exact ⟨m, _, hcont.trans hstep, .here (hposition ▸ hpre), hmirrors⟩

theorem At.fail {cause : Fault} (h : At n written program table bound pre p s)
    (hbound : commandsBefore program bound = pre ++ c :: post)
    (ha : p.act none c = .fault cause p') :
    ∃ r, Halts (State.runTo program.toArray table bound · s) r ∧ FailsWith n cause p' r := by
  cases hk : c.kind with
  | loopOpen => rw [act_opening hk] at ha; cases ha
  | loopClose => rw [act_closing hk] at ha; cases ha
  | simple action =>
      obtain ⟨m, s₁, byte, hcont, hlt, hbyte, -, hfollows⟩ := h.follows hbound hk
      rw [act_simple hk] at ha
      cases hrun : action.run p.device with
      | ok d => rw [hrun] at ha; cases ha
      | fault cause' d =>
          rw [hrun] at ha hfollows
          obtain ⟨rfl, -⟩ := Outcome.fault.inj ha
          generalize hnext : s₁.next table (.ofByte byte) = r at hfollows
          cases hfollows with
          | error hcause =>
              have hhalts := State.halts_of_next hlt hbyte hnext
              have hsteady := State.steady_runTo program.toArray table bound s
              exact ⟨_, (hcont.halts_iff hsteady _).mpr hhalts, _, rfl, hcause⟩

/-- The second pass replays the commands before the bound. -/
theorem replays_runTo (hjump : jumpTable program = .ok table) (hlength : bound ≤ program.length) :
    Replays none (commandsBefore program bound) (State.runTo program.toArray table bound)
      (At n written program table bound) (FailsWith n) where
  zero := fun _ => rfl
  steady := State.steady_runTo program.toArray table bound
  act := fun hbound hk h ha => h.act hbound hk ha
  fail := fun hbound h ha => h.fail hbound ha
  enter := by
    intro pre body post o c p p' s hpair ho hc hbody h ha hz
    rw [act_opening ho] at ha
    obtain rfl := Outcome.ok.inj ha
    have hbound : commandsBefore program bound = pre ++ o :: (body ++ c :: post) := by
      simp [hpair]
    obtain ⟨m, s', hcont, hpre, hmirrors⟩ := h.enter hbound ho hz
    exact ⟨m, s', hcont, .here hpre, hmirrors⟩
  leave := by
    intro pre body post o c p p' s hpair ho hc hbody h ha hz
    rw [act_opening ho] at ha
    obtain rfl := Outcome.ok.inj ha
    have hbound : commandsBefore program bound = pre ++ o :: (body ++ c :: post) := by
      simp [hpair]
    have hwhole : pre ++ o :: body ++ [c] <+: Dialect.builtin.commandsOf program := by
      have hprefix := commandsBefore_mono program hlength
      rw [commandsBefore_length, hpair] at hprefix
      exact .trans ⟨post, by simp⟩ hprefix
    obtain ⟨m, s', hcont, hpre, hmirrors⟩ := h.leave hjump hbound hwhole ho hc hbody hz
    exact ⟨m, s', hcont, .here hpre, hmirrors⟩
  back := by
    intro pre body post o c p p' s hpair ho hc hbody h ha
    rw [act_closing hc] at ha
    obtain rfl := Outcome.ok.inj ha
    obtain ⟨m, s', hcont, hstands, hmirrors⟩ := h.back hjump hpair ho hc hbody
    exact ⟨m, s', hcont, hstands, hmirrors⟩

end Program

end TapeScript.TwoPass
