import TapeScript.Proofs.Script.Semantics

/-! # Evaluations that end well

Rules for showing that a tree ends well wherever it is cut off: under a limit it may be stopped,
but only there, and with the cursor still in bounds. -/

namespace TapeScript.Script

open Outcome

variable {limit : Option Nat} {bound : Nat} {Q R : Device → Prop} {d d' : Device}
  {body rest : Script} {c o : Command}

/-- The evaluation has ended well, or the limit has stopped it in bounds. -/
inductive Assured (limit : Option Nat) (bound : Nat) (Q : Device → Prop) :
    Outcome Progress → Prop where
  | ok {p : Progress} (h : Q p.device) : Assured limit bound Q (.ok p)
  | cut {k : Nat} {p : Progress} (hlimit : limit = some k) (h : p.device.tape.cursor ≤ bound) :
      Assured limit bound Q (.fault (.limitReached k) p)

/-- Whatever was executed before, evaluating the tree on this device ends so. -/
def Assures (limit : Option Nat) (bound : Nat) (t : Script) (d : Device) (Q : Device → Prop) :
    Prop :=
  ∀ n, ∃ o, Evals limit t ⟨d, n⟩ o ∧ Assured limit bound Q o

/-- A further action is counted, or the limit allows none. -/
theorem charge_or (limit : Option Nat) (p : Progress) :
    p.charge limit = .ok { p with executed := p.executed + 1 } ∨
      ∃ k, limit = some k ∧ p.charge limit = .fault (.limitReached k) p := by
  cases limit with
  | none => exact .inl rfl
  | some k =>
      rcases Nat.lt_or_ge p.executed k with hlt | hge
      · exact .inl (if_pos hlt)
      · exact .inr ⟨k, rfl, if_neg (Nat.not_lt.mpr hge)⟩

/-- One computation after the other. -/
theorem exists_then {first : Outcome Progress → Prop} {next : Progress → Outcome Progress → Prop}
    (h : ∃ o, first o ∧ Assured limit bound R o)
    (hnext : ∀ p, R p.device → ∃ o, next p o ∧ Assured limit bound Q o) :
    ∃ o, Then first next o ∧ Assured limit bound Q o := by
  obtain ⟨o, ho, hassured⟩ := h
  cases hassured with
  | @ok p h =>
      obtain ⟨o', ho', hassured'⟩ := hnext p h
      exact ⟨o', .ok ho ho', hassured'⟩
  | cut hlimit h => exact ⟨_, .fault ho, .cut hlimit h⟩

theorem assures_done (h : Q d) : Assures limit bound done d Q :=
  fun _ => ⟨_, evals_done.mpr rfl, .ok h⟩

/-- The act of a simple command whose action succeeds. -/
theorem assured_act {action : Action} (hk : c.kind = .simple action)
    (hd : d.tape.cursor ≤ bound) (hrun : action.run d = .ok d') (n : Nat) :
    Assured limit bound (· = d') (Progress.act limit c ⟨d, n⟩) := by
  rw [Progress.act]
  rcases charge_or limit ⟨d, n⟩ with hcharge | ⟨k, hlimit, hcharge⟩
  · simp only [hcharge, hk, hrun]
    exact .ok rfl
  · simp only [hcharge]
    exact .cut hlimit hd

theorem assured_bracket (hk : c.kind = .loopOpen ∨ c.kind = .loopClose)
    (hd : d.tape.cursor ≤ bound) (n : Nat) :
    Assured limit bound (· = d) (Progress.act limit c ⟨d, n⟩) := by
  rw [Progress.act]
  rcases charge_or limit ⟨d, n⟩ with hcharge | ⟨k, hlimit, hcharge⟩
  · rcases hk with hk | hk <;> simp only [hcharge, hk] <;> exact .ok rfl
  · simp only [hcharge]
    exact .cut hlimit hd

theorem Assures.act {action : Action} (hk : c.kind = .simple action)
    (hd : d.tape.cursor ≤ bound) (hrun : action.run d = .ok d')
    (h : Assures limit bound rest d' Q) : Assures limit bound (act c rest) d Q := by
  intro n
  simp only [evals_act]
  refine exists_then ⟨_, rfl, assured_act hk hd hrun n⟩ ?_
  rintro p rfl
  exact h p.executed

/-- A loop whose body keeps an invariant and makes something smaller. -/
theorem Assures.loop (invariant : Device → Prop) (measure : Device → Nat)
    (ho : o.kind = .loopOpen) (hc : c.kind = .loopClose)
    (hbound : ∀ d, invariant d → d.tape.cursor ≤ bound)
    (hbody : ∀ d, invariant d → d.tape.current ≠ 0 →
      Assures limit bound body d fun d' => invariant d' ∧ measure d' < measure d)
    (hrest : ∀ d, invariant d → d.tape.current = 0 → Assures limit bound rest d Q)
    (h : invariant d) : Assures limit bound (loop o body c rest) d Q := by
  induction hm : measure d using Nat.strongRecOn generalizing d with
  | ind m ih =>
      intro n
      simp only [evals_loop]
      refine exists_then ⟨_, rfl, assured_bracket (.inl ho) (hbound d h) n⟩ ?_
      rintro p rfl
      by_cases hz : p.device.tape.current = 0
      · simp only [if_pos hz]
        exact hrest _ h hz p.executed
      · simp only [if_neg hz]
        refine exists_then (hbody _ h hz p.executed) fun p' hp' => ?_
        obtain ⟨hinvariant, hless⟩ := hp'
        refine exists_then ⟨_, rfl, assured_bracket (.inr hc) (hbound _ hinvariant) _⟩ ?_
        intro p'' hsame
        rw [← hsame] at hinvariant hless
        exact ih _ (hm ▸ hless) hinvariant rfl p''.executed

end TapeScript.Script
