import TapeScript.Proofs.TwoPass.Running

/-! # Running as far as a position

At the first moment when the pointer is at a position or behind it, a run has done what
evaluating the tree up to the commands before that position does. -/

namespace TapeScript.TwoPass

open Outcome Script

/-- The same kind of ending, in a state that mirrors the device or for the same cause. -/
inductive Answers (n : Nat) (written : Array UInt8) :
    Except Failure State → Outcome Progress → Prop
  | ok {s : State} {p : Progress} (h : Mirrors n written p.device s) :
      Answers n written (.ok s) (.ok p)
  | error {failure : Failure} {cause : Fault} {p : Progress} (h : SameCause n failure cause) :
      Answers n written (.error failure) (.fault cause p)

variable {n : Nat} {written : Array UInt8} {program : List UInt8} {table : JumpTable}
  {bound k : Nat} {pre : List Command} {t body rest : Script} {p : Progress} {s : State}
  {o c : Command}

theorem answers_of_failsWith (cause : Fault) (p : Progress) (r : Except Failure State)
    (h : FailsWith n cause p r) : Answers n written r (.fault cause p) := by
  obtain ⟨failure, rfl, hcause⟩ := h
  exact .error hcause

/-- With all commands before the bound done, only comments are left up to there. -/
theorem At.halts (h : At n written program table bound pre p s) (hlength : bound ≤ program.length)
    (hbound : commandsBefore program bound = pre) :
    ∃ s', Halts (State.runTo program.toArray table bound · s) (.ok s') ∧
      Mirrors n written p.device s' := by
  have hsteady := State.steady_runTo program.toArray table bound s
  cases h.stands with
  | here hpre =>
      by_cases hle : bound ≤ s.pointer
      · exact ⟨s, State.halts_of_le hle, h.mirrors⟩
      · obtain ⟨m, hcont⟩ := exists_continues_comments table (Nat.le_of_not_le hle)
          (Nat.le_refl bound) hlength (hpre.trans hbound.symm)
        exact ⟨_, (hcont.halts_iff hsteady _).mpr (State.halts_of_le (Nat.le_refl bound)),
          h.mirrors.withPointer bound⟩
  | @partner i j o c hpre hi _ _ _ _ _ hbi _ =>
      have hprefix := commandsBefore_mono program (show i + 1 ≤ bound from hbi)
      have hlt := hprefix.length_le
      rw [hi.commandsBefore_succ, hpre, hbound, List.length_append, List.length_singleton] at hlt
      omega

theorem At.matches_evalsTo_zero (h : At n written program table bound pre p s)
    (hlength : bound ≤ program.length) (hbound : commandsBefore program bound = pre) :
    Matches (Answers n written) (Halts (State.runTo program.toArray table bound · s))
      (EvalsTo none t 0 p) := by
  obtain ⟨s', hhalts, hmirrors⟩ := h.halts hlength hbound
  have hsteady := State.steady_runTo program.toArray table bound s
  exact (Matches.of_halts hhalts hsteady (.ok hmirrors)).congr (fun _ => Iff.rfl)
    fun _ => evalsTo_zero

/-- Leaving a loop that does not end before the bound leads behind the bound. -/
theorem At.matches_leave (hjump : jumpTable program = .ok table) (ht : body.Proper)
    (ho : o.kind = .loopOpen) (hc : c.kind = .loopClose)
    (h : At n written program table bound pre p s)
    (hbound : commandsBefore program bound = pre ++ o :: body.toCommands.take k)
    (hwhole : pre ++ (loop o body c rest).toCommands <+: Dialect.builtin.commandsOf program)
    (hz : p.device.tape.current = 0) :
    Matches (Answers n written) (Halts (State.runTo program.toArray table bound · s))
      (EvalsTo none rest 0 p) := by
  have hpair : pre ++ o :: body.toCommands ++ [c] <+: Dialect.builtin.commandsOf program :=
    .trans ⟨rest.toCommands, by simp [toCommands]⟩ hwhole
  obtain ⟨m, s', hcont, hpre, hmirrors⟩ := h.leave hjump hbound hpair ho hc ht.balanced hz
  have hbehind : bound ≤ s'.pointer := by
    apply Nat.le_of_not_lt
    intro hlt
    have hprefix := (commandsBefore_mono program (Nat.le_of_lt hlt)).length_le
    have htake := List.length_take_le' k body.toCommands
    simp only [hpre, hbound, List.length_append, List.length_cons, List.length_nil] at hprefix
    omega
  have hsteady := State.steady_runTo program.toArray table bound s
  have hhalts := (hcont.halts_iff hsteady _).mpr (State.halts_of_le hbehind)
  exact (Matches.of_halts hhalts hsteady (.ok hmirrors)).congr (fun _ => Iff.rfl)
    fun _ => evalsTo_zero

/-- A run as far as a bound in the body of a loop, as soon as runs from the beginning of the
body match. -/
theorem At.matches_inside (hjump : jumpTable program = .ok table) (ht : body.Proper)
    (ho : o.kind = .loopOpen) (hc : c.kind = .loopClose)
    (h : At n written program table bound pre p s)
    (hbound : commandsBefore program bound = pre ++ o :: body.toCommands.take k)
    (hwhole : pre ++ (loop o body c rest).toCommands <+: Dialect.builtin.commandsOf program)
    (hk : k ≤ body.length)
    (hinside : ∀ p s, At n written program table bound (pre ++ [o]) p s →
      Matches (Answers n written) (Halts (State.runTo program.toArray table bound · s))
        (EvalsTo none body k p)) :
    Matches (Answers n written) (Halts (State.runTo program.toArray table bound · s))
      (EvalsTo none (loop o body c rest) (k + 1) p) := by
  have hopened : At n written program table bound pre ⟨p.device, p.executed + 1⟩ s :=
    ⟨h.stands, h.mirrors⟩
  have hevals (o' : Outcome Progress) :
      EvalsTo none (loop o body c rest) (k + 1) p o' ↔
        if p.device.tape.current = 0 then EvalsTo none rest 0 ⟨p.device, p.executed + 1⟩ o'
        else EvalsTo none body k ⟨p.device, p.executed + 1⟩ o' := by
    rw [EvalsTo, act_opening ho, then_ok, if_pos hk,
      Nat.sub_eq_zero_of_le (Nat.le_succ_of_le hk)]
  by_cases hz : p.device.tape.current = 0
  · simp only [if_pos hz] at hevals
    have hleft := hopened.matches_leave hjump ht ho hc hbound hwhole hz
    exact hleft.congr (fun _ => Iff.rfl) hevals
  · simp only [if_neg hz] at hevals
    obtain ⟨m, s', hcont, hpre, hmirrors⟩ := hopened.enter hbound ho hz
    have hentered := hinside ⟨p.device, p.executed + 1⟩ s' ⟨.here hpre, hmirrors⟩
    have hsteady := State.steady_runTo program.toArray table bound s
    exact hentered.congr (hcont.halts_iff hsteady) hevals

/-- A run as far as the bound matches the evaluation of the commands before it. -/
theorem At.matches_evalsTo (hjump : jumpTable program = .ok table)
    (hlength : bound ≤ program.length) (ht : t.Proper)
    (h : At n written program table bound pre p s)
    (hbound : commandsBefore program bound = pre ++ t.toCommands.take k)
    (hwhole : pre ++ t.toCommands <+: Dialect.builtin.commandsOf program) (hk : k ≤ t.length) :
    Matches (Answers n written) (Halts (State.runTo program.toArray table bound · s))
      (EvalsTo none t k p) := by
  have hreplays : Replays none (commandsBefore program bound)
      (State.runTo program.toArray table bound) (At n written program table bound) (FailsWith n) :=
    replays_runTo hjump hlength
  have hsteady := State.steady_runTo program.toArray table bound
  induction ht generalizing pre p s k with
  | done =>
      obtain rfl := Nat.le_zero.mp hk
      exact h.matches_evalsTo_zero hlength (by simpa using hbound)
  | @act c rest action hkind hrest ih =>
      cases k with
      | zero => exact h.matches_evalsTo_zero hlength (by simpa using hbound)
      | succ k =>
          rw [toCommands, List.take_succ_cons] at hbound
          rw [toCommands, List.append_cons] at hwhole
          refine (hreplays.arrives_act hbound hkind h).matches_then (hsteady s)
            answers_of_failsWith fun p' s' h' => ?_
          exact ih h' (by simpa using hbound) hwhole (by simpa using hk)
  | @loop o c body rest ho hc hbody hrest ihbody ih =>
      cases k with
      | zero => exact h.matches_evalsTo_zero hlength (by simpa using hbound)
      | succ k =>
          rw [toCommands, List.take_succ_cons] at hbound
          by_cases hin : k ≤ body.length
          · rw [take_loop_of_le c hin] at hbound
            have hinside : pre ++ [o] ++ body.toCommands <+: Dialect.builtin.commandsOf program :=
              .trans ⟨c :: rest.toCommands, by simp [toCommands]⟩ hwhole
            exact h.matches_inside hjump hbody ho hc hbound hwhole hin fun p' s' h' =>
              ihbody h' (by simpa using hbound) hinside hin
          · have hlt := Nat.lt_of_not_le hin
            rw [take_loop_of_lt c hlt] at hbound
            have hloop : pre ++ (loop o body c done).toCommands =
                pre ++ o :: body.toCommands ++ [c] := by
              simp [toCommands]
            have hle : k - (body.length + 1) ≤ rest.length := by
              rw [length_loop] at hk
              omega
            refine Matches.congr ?_ (fun _ => Iff.rfl) fun _ => evalsTo_loop_of_lt hlt
            refine hreplays.matches_then (.loop ho hc hbody .done) ?_ h answers_of_failsWith
              fun p' s' h' => ih h' ?_ ?_ hle
            · rw [hloop, hbound]
              exact ⟨rest.toCommands.take (k - (body.length + 1)), by simp⟩
            · rw [hloop, hbound]
              simp
            · rw [hloop, ← append_loop]
              exact hwhole

end TapeScript.TwoPass
