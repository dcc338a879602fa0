import TapeScript.Proofs.Script.Semantics

/-! # Machines that replay recorded commands

A machine without trees follows the evaluation of every tree that lies among its recorded
commands, as soon as it does the right thing at each single command. -/

namespace TapeScript

open Outcome Script

variable {σ ρ : Type}

/-- The machine gets from one state to the other, whatever it does then. -/
def Continues (run : Nat → σ → Option ρ) (n : Nat) (s s' : σ) : Prop :=
  ∀ fuel, run (n + fuel) s = run fuel s'

theorem Continues.refl (run : Nat → σ → Option ρ) (s : σ) : Continues run 0 s s := by
  intro fuel
  rw [Nat.zero_add]

theorem Continues.trans {run : Nat → σ → Option ρ} {m n : Nat} {s s' s'' : σ}
    (h : Continues run m s s') (h' : Continues run n s' s'') : Continues run (m + n) s s'' := by
  intro fuel
  rw [Nat.add_assoc, h, h']

theorem Continues.halts_iff {run : Nat → σ → Option ρ} {n : Nat} {s s' : σ}
    (h : Continues run n s s') (hs : Steady (run · s)) (r : ρ) :
    Halts (run · s) r ↔ Halts (run · s') r := by
  constructor
  · rintro ⟨fuel, hr⟩
    have hr' : run (n + fuel) s = some r := hs.mono (Nat.le_add_left fuel n) hr
    exact ⟨fuel, (h fuel).symm.trans hr'⟩
  · rintro ⟨fuel, hr⟩
    exact ⟨n + fuel, (h fuel).trans hr⟩

/-- A machine that ends goes through every state that it gets to, and needs fuel behind it. -/
theorem Continues.run_eq {run : Nat → σ → Option ρ} {m n : Nat} {s s' : σ} {r : ρ}
    (h : Continues run m s s') (hs : Steady (run · s)) (hzero : run 0 s' = none)
    (hr : run n s = some r) : ∃ k, n = m + k ∧ run k s' = some r := by
  rcases Nat.lt_or_ge n m with hlt | hle
  · have hm : run (m + 0) s = some r := hs.mono (Nat.le_of_lt hlt) hr
    rw [h, hzero] at hm
    cases hm
  · obtain ⟨k, rfl⟩ := Nat.exists_eq_add_of_le hle
    exact ⟨k, rfl, (h k).symm.trans hr⟩

/-- What a machine does at one recorded command. `At pre p s` says that in state `s` the
commands `pre` are done, with the progress `p`, and the next one is due. -/
structure Replays (limit : Option Nat) (recorded : List Command) (run : Nat → σ → Option ρ)
    (At : List Command → Progress → σ → Prop) (Fails : Fault → Progress → ρ → Prop) : Prop where
  zero : ∀ s, run 0 s = none
  steady : ∀ s, Steady (run · s)
  act : ∀ {pre post : List Command} {c : Command} {action : Action} {p p' : Progress} {s : σ},
    recorded = pre ++ c :: post → c.kind = .simple action → At pre p s →
    p.act limit c = .ok p' → ∃ n s', Continues run (n + 1) s s' ∧ At (pre ++ [c]) p' s'
  fail : ∀ {pre post : List Command} {c : Command} {cause : Fault} {p p' : Progress} {s : σ},
    recorded = pre ++ c :: post → At pre p s → p.act limit c = .fault cause p' →
    ∃ r, Halts (run · s) r ∧ Fails cause p' r
  enter : ∀ {pre body post : List Command} {o c : Command} {p p' : Progress} {s : σ},
    recorded = pre ++ o :: body ++ c :: post → o.kind = .loopOpen → c.kind = .loopClose →
    Bracket.Balanced (Bracket.ofCommands body) → At pre p s → p.act limit o = .ok p' →
    p'.device.tape.current ≠ 0 → ∃ n s', Continues run (n + 1) s s' ∧ At (pre ++ [o]) p' s'
  leave : ∀ {pre body post : List Command} {o c : Command} {p p' : Progress} {s : σ},
    recorded = pre ++ o :: body ++ c :: post → o.kind = .loopOpen → c.kind = .loopClose →
    Bracket.Balanced (Bracket.ofCommands body) → At pre p s → p.act limit o = .ok p' →
    p'.device.tape.current = 0 →
    ∃ n s', Continues run (n + 1) s s' ∧ At (pre ++ o :: body ++ [c]) p' s'
  back : ∀ {pre body post : List Command} {o c : Command} {p p' : Progress} {s : σ},
    recorded = pre ++ o :: body ++ c :: post → o.kind = .loopOpen → c.kind = .loopClose →
    Bracket.Balanced (Bracket.ofCommands body) → At (pre ++ o :: body) p s →
    p.act limit c = .ok p' → ∃ n s', Continues run n s s' ∧ At pre p' s'

/-- The machine arrives behind `pre`, or ends with the fault. -/
inductive Arrives (run : Nat → σ → Option ρ) (At : List Command → Progress → σ → Prop)
    (Fails : Fault → Progress → ρ → Prop) (pre : List Command) (s : σ) : Outcome Progress → Prop
  | ok {p : Progress} {n : Nat} {s' : σ} (h : Continues run n s s') (hat : At pre p s') :
      Arrives run At Fails pre s (.ok p)
  | fault {cause : Fault} {p : Progress} {r : ρ} (h : Halts (run · s) r) (hr : Fails cause p r) :
      Arrives run At Fails pre s (.fault cause p)

theorem Arrives.of_continues {run : Nat → σ → Option ρ}
    {At : List Command → Progress → σ → Prop} {Fails : Fault → Progress → ρ → Prop}
    {pre : List Command} {n : Nat} {s s' : σ} {o : Outcome Progress}
    (h : Arrives run At Fails pre s' o) (hc : Continues run n s s') (hs : Steady (run · s)) :
    Arrives run At Fails pre s o := by
  cases h with
  | ok h hat => exact .ok (hc.trans h) hat
  | fault h hr => exact .fault ((hc.halts_iff hs _).mpr h) hr

/-- What the machine does behind `pre` it does after it has arrived there. -/
theorem Arrives.matches_then {run : Nat → σ → Option ρ} {At : List Command → Progress → σ → Prop}
    {Fails : Fault → Progress → ρ → Prop} {R : ρ → Outcome Progress → Prop}
    {next : Progress → Outcome Progress → Prop} {pre : List Command} {s : σ}
    {o : Outcome Progress} (h : Arrives run At Fails pre s o) (hs : Steady (run · s))
    (hfault : ∀ cause p r, Fails cause p r → R r (.fault cause p))
    (hnext : ∀ p s', At pre p s' → Matches R (Halts (run · s')) (next p)) :
    Matches R (Halts (run · s)) (Then (· = o) next) := by
  cases h with
  | ok hc hat => exact (hnext _ _ hat).congr (hc.halts_iff hs) fun _ => then_ok
  | fault hr hf =>
      exact (Matches.of_halts hr hs (hfault _ _ _ hf)).congr (fun _ => Iff.rfl)
        fun _ => then_fault

/-- The machine arrives behind one part of the commands and goes on from there. -/
theorem arrives_then {run : Nat → σ → Option ρ} {At : List Command → Progress → σ → Prop}
    {Fails : Fault → Progress → ρ → Prop} (pre : List Command) {pre' : List Command} {s : σ}
    {first : Outcome Progress → Prop} {next : Progress → Outcome Progress → Prop}
    {o : Outcome Progress} (hs : Steady (run · s)) (h : Then first next o)
    (hfirst : ∀ o, first o → Arrives run At Fails pre s o)
    (hnext : ∀ p s' o, At pre p s' → next p o → Arrives run At Fails pre' s' o) :
    Arrives run At Fails pre' s o := by
  cases h with
  | fault h =>
      cases hfirst _ h with
      | fault hr hf => exact .fault hr hf
  | ok h ho =>
      cases hfirst _ h with
      | ok hc hat => exact (hnext _ _ _ hat ho).of_continues hc hs

namespace Replays

variable {limit : Option Nat} {recorded : List Command} {run : Nat → σ → Option ρ}
  {At : List Command → Progress → σ → Prop} {Fails : Fault → Progress → ρ → Prop}
  {pre body post : List Command} {o c : Command} {t : Script} {p : Progress} {s : σ}

theorem arrives_act (h : Replays limit recorded run At Fails) {action : Action}
    (hrecorded : recorded = pre ++ c :: post) (hk : c.kind = .simple action) (hat : At pre p s) :
    Arrives run At Fails (pre ++ [c]) s (p.act limit c) := by
  cases ho : p.act limit c with
  | ok p' =>
      obtain ⟨n, s', hc, hat'⟩ := h.act hrecorded hk hat ho
      exact .ok hc hat'
  | fault cause p' =>
      obtain ⟨r, hr, hf⟩ := h.fail hrecorded hat ho
      exact .fault hr hf

theorem arrives_back (h : Replays limit recorded run At Fails)
    (hrecorded : recorded = pre ++ o :: body ++ c :: post) (ho : o.kind = .loopOpen)
    (hc : c.kind = .loopClose) (hbody : Bracket.Balanced (Bracket.ofCommands body))
    (hat : At (pre ++ o :: body) p s) : Arrives run At Fails pre s (p.act limit c) := by
  cases hp : p.act limit c with
  | ok p' =>
      obtain ⟨n, s', hc, hat'⟩ := h.back hrecorded ho hc hbody hat hp
      exact .ok hc hat'
  | fault cause p' =>
      obtain ⟨r, hr, hf⟩ := h.fail hrecorded hat hp
      exact .fault hr hf

/-- The machine executes the opening command of a loop, and goes on behind the loop or in
its body. -/
theorem arrives_open (h : Replays limit recorded run At Fails) {pre' : List Command}
    {next : Progress → Outcome Progress → Prop} {ending : Outcome Progress}
    (hrecorded : recorded = pre ++ o :: body ++ c :: post) (ho : o.kind = .loopOpen)
    (hc : c.kind = .loopClose) (hbody : Bracket.Balanced (Bracket.ofCommands body))
    (hat : At pre p s) (he : Then (· = p.act limit o) next ending)
    (hbehind : ∀ p s, p.device.tape.current = 0 → At (pre ++ o :: body ++ [c]) p s →
      next p ending → Arrives run At Fails pre' s ending)
    (hinside : ∀ p s, p.device.tape.current ≠ 0 → At (pre ++ [o]) p s →
      next p ending → Arrives run At Fails pre' s ending) :
    Arrives run At Fails pre' s ending := by
  cases he with
  | fault he =>
      have hopen : recorded = pre ++ o :: (body ++ c :: post) := by
        simp [hrecorded]
      obtain ⟨r, hr, hf⟩ := h.fail hopen hat he.symm
      exact .fault hr hf
  | @ok p' _ he hnext =>
      by_cases hz : p'.device.tape.current = 0
      · obtain ⟨n, s', hcont, hat'⟩ := h.leave hrecorded ho hc hbody hat he.symm hz
        exact (hbehind _ _ hz hat' hnext).of_continues hcont (h.steady s)
      · obtain ⟨n, s', hcont, hat'⟩ := h.enter hrecorded ho hc hbody hat he.symm hz
        exact (hinside _ _ hz hat' hnext).of_continues hcont (h.steady s)

/-- The machine follows the evaluation of a recorded tree. -/
theorem arrives (h : Replays limit recorded run At Fails) {fuel : Nat} {o : Outcome Progress}
    (he : eval limit fuel t p = some o) (ht : t.Proper)
    (hrecorded : pre ++ t.toCommands <+: recorded) (hat : At pre p s) :
    Arrives run At Fails (pre ++ t.toCommands) s o := by
  induction fuel generalizing t p s pre o with
  | zero => cases he
  | succ fuel ih =>
      obtain ⟨post, hpost⟩ := hrecorded
      cases ht with
      | done =>
          obtain rfl := Option.some.inj he
          exact .ok (.refl run s) (by rwa [toCommands, List.append_nil])
      | @act c rest action hk hrest =>
          have hsplit : recorded = pre ++ c :: (rest.toCommands ++ post) := by
            simp [← hpost, toCommands]
          rw [eval_act, chain_eq_some] at he
          rw [toCommands, List.append_cons]
          refine arrives_then (pre ++ [c]) (h.steady s) he ?_ fun p s' o hat' ho => ?_
          · rintro _ ⟨⟩
            exact h.arrives_act hsplit hk hat
          · exact ih ho hrest ⟨post, by simp [hsplit]⟩ hat'
      | @loop opening closing body rest ho hc hbody hrest =>
          have hsplit : recorded = pre ++ opening :: body.toCommands ++
              closing :: (rest.toCommands ++ post) := by
            simp [← hpost, toCommands]
          rw [eval_loop, chain_eq_some] at he
          have hopen := he.imp (fun _ ho => (Option.some.inj ho).symm) fun _ _ ho => ho
          refine h.arrives_open hsplit ho hc hbody.balanced hat hopen ?_ ?_
          · intro p₁ s₁ hz hat₁ hbehind
            rw [if_pos hz] at hbehind
            have hwhole : pre ++ (loop opening body closing rest).toCommands =
                pre ++ opening :: body.toCommands ++ [closing] ++ rest.toCommands := by
              simp [toCommands]
            rw [hwhole] at hpost ⊢
            exact ih hbehind hrest ⟨post, hpost⟩ hat₁
          · intro p₁ s₁ hz hat₁ hinside
            rw [if_neg hz, chain_eq_some] at hinside
            refine arrives_then (pre ++ [opening] ++ body.toCommands) (h.steady s₁) hinside
              (fun o hb => ih hb hbody ?_ hat₁) fun p₂ s₂ o hat₂ hagain => ?_
            · exact ⟨closing :: (rest.toCommands ++ post), by simp [hsplit]⟩
            · rw [chain_eq_some] at hagain
              refine arrives_then pre (h.steady s₂) hagain ?_ fun p₃ s₃ o hat₃ hagain => ?_
              · rintro _ ⟨⟩
                exact h.arrives_back hsplit ho hc hbody.balanced (by simpa using hat₂)
              · exact ih hagain (.loop ho hc hbody hrest) ⟨post, hpost⟩ hat₃

/-- A machine in the body of a loop that ends has a result of every round: the body's, the
closing command's, or that of what it does on its next arrival at the loop. -/
theorem exists_round (h : Replays limit recorded run At Fails) {fuel : Nat} {r : ρ}
    {ending : Outcome Progress} {next : Progress → Outcome Progress → Prop}
    (hrecorded : recorded = pre ++ o :: t.toCommands ++ c :: post) (ho : o.kind = .loopOpen)
    (hc : c.kind = .loopClose) (ht : t.Proper) (hat : At (pre ++ [o]) p s)
    (he : Evals limit t p ending) (hr : run fuel s = some r)
    (hnext : ∀ k p s, k ≤ fuel → run k s = some r → At pre p s → ∃ o', next p o') :
    ∃ o', Then (Evals limit t p) (fun p => Then (· = p.act limit c) next) o' := by
  have hinside : pre ++ [o] ++ t.toCommands <+: recorded :=
    ⟨c :: post, by simp [hrecorded]⟩
  obtain ⟨n, hn⟩ := he
  cases h.arrives hn ht hinside hat with
  | fault _ _ => exact ⟨_, .fault ⟨n, hn⟩⟩
  | @ok p₁ m s₁ hcont hat₁ =>
      cases hp : p₁.act limit c with
      | fault cause p₂ => exact ⟨_, .ok ⟨n, hn⟩ (.fault hp.symm)⟩
      | ok p₂ =>
          obtain ⟨j, s₂, hcont', hat₂⟩ :=
            h.back hrecorded ho hc ht.balanced (by simpa using hat₁) hp
          obtain ⟨k, hk, hr'⟩ := (hcont.trans hcont').run_eq (h.steady s) (h.zero s₂) hr
          obtain ⟨o', ho'⟩ := hnext k p₂ s₂ (by omega) hr' hat₂
          exact ⟨o', .ok ⟨n, hn⟩ (.ok hp.symm ho')⟩

/-- If the machine ends, so does the evaluation: every round of a loop costs it fuel. -/
theorem exists_evals (h : Replays limit recorded run At Fails) {fuel : Nat} {r : ρ}
    (hr : run fuel s = some r) (ht : t.Proper) (hrecorded : pre ++ t.toCommands <+: recorded)
    (hat : At pre p s) : ∃ o, Evals limit t p o := by
  induction fuel using Nat.strongRecOn generalizing t p s pre with
  | ind fuel ih =>
      obtain ⟨post, hpost⟩ := hrecorded
      cases ht with
      | done => exact ⟨.ok p, evals_done.mpr rfl⟩
      | @act c rest action hk hrest =>
          have hsplit : recorded = pre ++ c :: (rest.toCommands ++ post) := by
            simp [← hpost, toCommands]
          cases hp : p.act limit c with
          | fault cause p' => exact ⟨_, evals_act.mpr (.fault hp.symm)⟩
          | ok p' =>
              obtain ⟨n, s', hcont, hat'⟩ := h.act hsplit hk hat hp
              obtain ⟨k, rfl, hk'⟩ := hcont.run_eq (h.steady s) (h.zero s') hr
              obtain ⟨o, ho⟩ := ih k (by omega) hk' hrest ⟨post, by simp [hsplit]⟩ hat'
              exact ⟨o, evals_act.mpr (.ok hp.symm ho)⟩
      | @loop opening closing body rest ho hc hbody hrest =>
          have hsplit : recorded = pre ++ opening :: body.toCommands ++
              closing :: (rest.toCommands ++ post) := by
            simp [← hpost, toCommands]
          cases hp : p.act limit opening with
          | fault cause p' => exact ⟨_, evals_loop.mpr (.fault hp.symm)⟩
          | ok p₁ =>
              by_cases hz : p₁.device.tape.current = 0
              · obtain ⟨n, s', hcont, hat'⟩ := h.leave hsplit ho hc hbody.balanced hat hp hz
                obtain ⟨k, rfl, hk⟩ := hcont.run_eq (h.steady s) (h.zero s') hr
                obtain ⟨o, he⟩ := ih k (by omega) hk hrest ⟨post, by simp [hsplit]⟩ hat'
                exact ⟨o, evals_loop.mpr (.ok hp.symm (by rwa [if_pos hz]))⟩
              · obtain ⟨n, s₁, hcont, hat₁⟩ := h.enter hsplit ho hc hbody.balanced hat hp hz
                obtain ⟨k, rfl, hk⟩ := hcont.run_eq (h.steady s) (h.zero s₁) hr
                obtain ⟨o, he⟩ := ih k (by omega) hk hbody
                  ⟨closing :: (rest.toCommands ++ post), by simp [hsplit]⟩ hat₁
                have hagain (j : Nat) (p : Progress) (s : σ) (hj : j ≤ k)
                    (hr : run j s = some r) (hat : At pre p s) :=
                  ih j (by omega) hr (.loop ho hc hbody hrest) ⟨post, hpost⟩ hat
                obtain ⟨o', ho'⟩ := h.exists_round hsplit ho hc hbody hat₁ he hk hagain
                exact ⟨o', evals_loop.mpr (.ok hp.symm (by rwa [if_neg hz]))⟩

/-- The machine matches the evaluation of a recorded tree, followed by what it does then. -/
theorem matches_then (h : Replays limit recorded run At Fails)
    {R : ρ → Outcome Progress → Prop} {next : Progress → Outcome Progress → Prop}
    (ht : t.Proper) (hrecorded : pre ++ t.toCommands <+: recorded) (hat : At pre p s)
    (hfault : ∀ cause p r, Fails cause p r → R r (.fault cause p))
    (hnext : ∀ p s, At (pre ++ t.toCommands) p s → Matches R (Halts (run · s)) (next p)) :
    Matches R (Halts (run · s)) (Then (Evals limit t p) next) := by
  by_cases hends : ∃ o, Evals limit t p o
  · obtain ⟨o, fuel, he⟩ := hends
    have hunique (o' : Outcome Progress) : Evals limit t p o' ↔ o' = o :=
      Halts.iff_eq ⟨fuel, he⟩ (steady_eval limit t p)
    have hmatches := (h.arrives he ht hrecorded hat).matches_then (h.steady s) hfault hnext
    exact hmatches.congr (fun _ => Iff.rfl) fun _ => then_congr hunique fun _ _ => Iff.rfl
  · constructor
    · intro r hr
      obtain ⟨n, hn⟩ := hr
      exact absurd (h.exists_evals hn ht hrecorded hat) hends
    · intro o ho
      cases ho with
      | fault he => exact absurd ⟨_, he⟩ hends
      | ok he _ => exact absurd ⟨_, he⟩ hends

end Replays

end TapeScript
