import TapeScript.Script.Evaluation
import TapeScript.Proofs.Computation
import TapeScript.Proofs.Script.Parsing

/-! # Evaluation without fuel

The results of evaluating a tree satisfy one equation for every kind of tree. -/

namespace TapeScript.Script

open Outcome

variable {limit : Option Nat}

theorem eval_act (limit : Option Nat) (fuel : Nat) (c : Command) (rest : Script) (p : Progress) :
    eval limit (fuel + 1) (act c rest) p = chain (some (p.act limit c)) (eval limit fuel rest) := by
  rw [eval]
  cases p.act limit c <;> rfl

theorem eval_loop (limit : Option Nat) (fuel : Nat) (opening closing : Command)
    (body rest : Script) (p : Progress) :
    eval limit (fuel + 1) (loop opening body closing rest) p =
      chain (some (p.act limit opening)) fun p =>
        if p.device.tape.current = 0 then eval limit fuel rest p
        else chain (eval limit fuel body p) fun p =>
          chain (some (p.act limit closing))
            (eval limit fuel (loop opening body closing rest)) := by
  rw [eval]
  cases p.act limit opening with
  | fault cause p => rfl
  | ok p =>
      simp only [chain]
      split
      · rfl
      · rcases eval limit fuel body p with _ | p | ⟨cause, p⟩
        · rfl
        · simp only
          cases p.act limit closing <;> rfl
        · rfl

theorem steady_eval (limit : Option Nat) (t : Script) (p : Progress) :
    Steady fun fuel => eval limit fuel t p := by
  intro fuel
  induction fuel generalizing t p with
  | zero =>
      intro o h
      cases h
  | succ fuel ih =>
      intro o h
      cases t with
      | done => exact h
      | act c rest =>
          dsimp only at h ⊢
          rw [eval_act, chain_eq_some] at h ⊢
          exact h.imp (fun _ ho => ho) fun p o ho => ih rest p ho
      | loop opening body closing rest =>
          dsimp only at h ⊢
          rw [eval_loop, chain_eq_some] at h ⊢
          refine h.imp (fun _ ho => ho) fun p o ho => ?_
          split at ho <;> rename_i hz
          · rw [if_pos hz]
            exact ih rest p ho
          · rw [if_neg hz]
            rw [chain_eq_some] at ho ⊢
            refine ho.imp (fun o ho => ih body p ho) fun p o ho => ?_
            rw [chain_eq_some] at ho ⊢
            exact ho.imp (fun _ ho => ho) fun p o ho => ih _ p ho

/-- The evaluation ends with this result. -/
def Evals (limit : Option Nat) (t : Script) (p : Progress) (o : Outcome Progress) : Prop :=
  Halts (fun fuel => eval limit fuel t p) o

theorem Evals.unique {t : Script} {p : Progress} {o o' : Outcome Progress}
    (h : Evals limit t p o) (h' : Evals limit t p o') : o = o' :=
  Halts.unique h (steady_eval limit t p) h'

theorem evals_succ {t : Script} {p : Progress} {o : Outcome Progress} :
    Evals limit t p o ↔ Halts (fun fuel => eval limit (fuel + 1) t p) o := by
  constructor
  · rintro ⟨fuel, h⟩
    exact ⟨fuel, steady_eval limit t p h⟩
  · rintro ⟨fuel, h⟩
    exact ⟨fuel + 1, h⟩

theorem evals_done {p : Progress} {o : Outcome Progress} : Evals limit done p o ↔ o = .ok p :=
  evals_succ.trans halts_some

theorem evals_act {c : Command} {rest : Script} {p : Progress} {o : Outcome Progress} :
    Evals limit (act c rest) p o ↔ Then (· = p.act limit c) (Evals limit rest) o := by
  rw [evals_succ]
  simp only [eval_act]
  exact halts_chain_some fun p => steady_eval limit rest p

theorem evals_loop {opening closing : Command} {body rest : Script} {p : Progress}
    {o : Outcome Progress} :
    Evals limit (loop opening body closing rest) p o ↔
      Then (· = p.act limit opening) (fun p o =>
        if p.device.tape.current = 0 then Evals limit rest p o
        else Then (Evals limit body p) (fun p =>
          Then (· = p.act limit closing) (Evals limit (loop opening body closing rest))) o) o := by
  have hagain (p : Progress) : Steady fun fuel => chain (some (p.act limit closing))
      (eval limit fuel (loop opening body closing rest)) :=
    steady_chain_some _ fun p => steady_eval limit _ p
  rw [evals_succ]
  simp only [eval_loop]
  rw [halts_chain_some]
  · refine then_congr (fun _ => Iff.rfl) fun p o => ?_
    by_cases hz : p.device.tape.current = 0
    · simp only [if_pos hz]
      exact Iff.rfl
    · simp only [if_neg hz]
      rw [halts_chain (steady_eval limit body p) hagain]
      refine then_congr (fun _ => Iff.rfl) fun p o => ?_
      exact halts_chain_some fun p => steady_eval limit _ p
  · intro p
    by_cases hz : p.device.tape.current = 0
    · simp only [if_pos hz]
      exact steady_eval limit rest p
    · simp only [if_neg hz]
      exact steady_chain (steady_eval limit body p) hagain

/-! ## A loop and what follows it -/

section Rest

variable {opening closing : Command} {body rest : Script} {p : Progress} {o : Outcome Progress}

theorem then_loop_of_eval {fuel : Nat}
    (h : eval limit fuel (loop opening body closing rest) p = some o) :
    Then (Evals limit (loop opening body closing done) p) (Evals limit rest) o := by
  induction fuel generalizing p o with
  | zero => cases h
  | succ fuel ih =>
      rw [eval_loop, chain_eq_some] at h
      rw [then_congr (fun _ => evals_loop) fun _ _ => Iff.rfl, then_assoc]
      refine h.imp (fun _ ho => (Option.some.inj ho).symm) fun p o ho => ?_
      by_cases hz : p.device.tape.current = 0
      · simp only [if_pos hz] at ho ⊢
        exact .ok (evals_done.mpr rfl) ⟨fuel, ho⟩
      · simp only [if_neg hz] at ho ⊢
        rw [chain_eq_some] at ho
        rw [then_assoc]
        refine ho.imp (fun _ ho => ⟨fuel, ho⟩) fun p o ho => ?_
        rw [chain_eq_some] at ho
        rw [then_assoc]
        exact ho.imp (fun _ ho => (Option.some.inj ho).symm) fun p o ho => ih ho

theorem evals_loop_of_eval {fuel : Nat} {o' : Outcome Progress}
    (h : eval limit fuel (loop opening body closing done) p = some o')
    (ho : Then (· = o') (Evals limit rest) o) :
    Evals limit (loop opening body closing rest) p o := by
  induction fuel generalizing p o' with
  | zero => cases h
  | succ fuel ih =>
      rw [eval_loop, chain_eq_some] at h
      rw [evals_loop]
      cases h with
      | fault h =>
          rw [then_fault] at ho
          exact ho ▸ .fault (Option.some.inj h).symm
      | @ok p _ h hnext =>
          refine .ok (Option.some.inj h).symm ?_
          by_cases hz : p.device.tape.current = 0
          · rw [if_pos hz] at hnext ⊢
            obtain rfl := evals_done.mp ⟨fuel, hnext⟩
            exact then_ok.mp ho
          · rw [if_neg hz] at hnext ⊢
            rw [chain_eq_some] at hnext
            cases hnext with
            | fault h =>
                rw [then_fault] at ho
                exact ho ▸ .fault ⟨fuel, h⟩
            | ok h hnext =>
                refine .ok ⟨fuel, h⟩ ?_
                rw [chain_eq_some] at hnext
                cases hnext with
                | fault h =>
                    rw [then_fault] at ho
                    exact ho ▸ .fault (Option.some.inj h).symm
                | ok h hnext => exact .ok (Option.some.inj h).symm (ih hnext ho)

/-- What follows a loop is evaluated after it. -/
theorem evals_loop_rest :
    Evals limit (loop opening body closing rest) p o ↔
      Then (Evals limit (loop opening body closing done) p) (Evals limit rest) o := by
  constructor
  · rintro ⟨fuel, h⟩
    exact then_loop_of_eval h
  · intro h
    cases h with
    | fault h =>
        obtain ⟨fuel, h⟩ := h
        exact evals_loop_of_eval h (.fault rfl)
    | ok h hnext =>
        obtain ⟨fuel, h⟩ := h
        exact evals_loop_of_eval h (.ok rfl hnext)

end Rest

/-! ## The beginning of a script -/

/-- Evaluates the script as far as its first commands go, up to the moment when as many as
`k` of them are passed. A loop that is left has all of its commands behind it. -/
def EvalsTo (limit : Option Nat) : Script → Nat → Progress → Outcome Progress → Prop
  | done, _, p, o => o = .ok p
  | act _ _, 0, p, o => o = .ok p
  | act command rest, k + 1, p, o =>
      Then (· = p.act limit command) (EvalsTo limit rest k) o
  | loop _ _ _ _, 0, p, o => o = .ok p
  | loop opening body closing rest, k + 1, p, o =>
      Then (· = p.act limit opening) (fun p o =>
        if p.device.tape.current = 0 then EvalsTo limit rest (k - (body.length + 1)) p o
        else if k ≤ body.length then EvalsTo limit body k p o
        else Then (Evals limit body p) (fun p =>
          Then (· = p.act limit closing) fun p =>
            Then (Evals limit (loop opening body closing done) p)
              (EvalsTo limit rest (k - (body.length + 1)))) o) o

theorem evalsTo_zero {t : Script} {p : Progress} {o : Outcome Progress} :
    EvalsTo limit t 0 p o ↔ o = .ok p := by
  cases t <;> rfl

/-- A loop that ends among the first commands is evaluated as a whole. -/
theorem evalsTo_loop_of_lt {opening closing : Command} {body rest : Script} {k : Nat}
    {p : Progress} {o : Outcome Progress} (hk : body.length < k) :
    EvalsTo limit (loop opening body closing rest) (k + 1) p o ↔
      Then (Evals limit (loop opening body closing done) p)
        (EvalsTo limit rest (k - (body.length + 1))) o := by
  rw [EvalsTo, then_congr (fun _ => evals_loop) fun _ _ => Iff.rfl, then_assoc]
  refine then_congr (fun _ => Iff.rfl) fun p o => ?_
  by_cases hz : p.device.tape.current = 0
  · simp only [if_pos hz]
    rw [then_congr (fun _ => evals_done) fun _ _ => Iff.rfl, then_ok]
  · simp only [if_neg hz, if_neg (Nat.not_le.mpr hk)]
    rw [then_assoc]
    exact then_congr (fun _ => Iff.rfl) fun _ _ => then_assoc.symm

/-- Behind the last command the script is evaluated as a whole. -/
theorem evalsTo_length (t : Script) (p : Progress) (o : Outcome Progress) :
    EvalsTo limit t t.length p o ↔ Evals limit t p o := by
  induction t generalizing p o with
  | done => exact evals_done.symm
  | act c rest ih =>
      rw [evals_act]
      exact then_congr (fun _ => Iff.rfl) ih
  | loop opening body closing rest _ ih =>
      have hlt : body.length < body.length + 1 + rest.length := by omega
      rw [length_loop, evalsTo_loop_of_lt hlt, Nat.add_sub_cancel_left, evals_loop_rest]
      exact then_congr (fun _ => Iff.rfl) ih

end TapeScript.Script
