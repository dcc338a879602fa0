import Mathlib.Data.List.Forall2
import TapeScript.Outcome

/-! # Computations that may not end

A computation under fuel is known by its results. Two computations match when both end or
neither does; a loop matches another one piece by piece. -/

namespace TapeScript

variable {α β γ σ τ ρ : Type}

/-! ## Fuel -/

/-- The computation ends with this result under some fuel. -/
def Halts (run : Nat → Option ρ) (r : ρ) : Prop := ∃ fuel, run fuel = some r

/-- More fuel does not change a result. -/
def Steady (run : Nat → Option ρ) : Prop :=
  ∀ ⦃fuel r⦄, run fuel = some r → run (fuel + 1) = some r

theorem Steady.mono {run : Nat → Option ρ} (h : Steady run) {m n : Nat} {r : ρ} (hmn : m ≤ n)
    (hr : run m = some r) : run n = some r := by
  induction n with
  | zero =>
      rw [Nat.le_zero.mp hmn] at hr
      exact hr
  | succ n ih =>
      rcases Nat.lt_or_ge n m with hlt | hle
      · rw [Nat.le_antisymm hmn hlt] at hr
        exact hr
      · exact h (ih hle)

theorem steady_const (r : Option ρ) : Steady fun _ => r := fun _ _ h => h

theorem halts_some {r r' : ρ} : Halts (fun _ => some r) r' ↔ r' = r := by
  constructor
  · rintro ⟨_, h⟩
    exact (Option.some.inj h).symm
  · rintro rfl
    exact ⟨0, rfl⟩

theorem Halts.unique {run : Nat → Option ρ} {r r' : ρ} (h : Halts run r) (hs : Steady run)
    (h' : Halts run r') : r = r' := by
  obtain ⟨m, hm⟩ := h
  obtain ⟨n, hn⟩ := h'
  have hm' := hs.mono (Nat.le_max_left m n) hm
  have hn' := hs.mono (Nat.le_max_right m n) hn
  exact Option.some.inj (hm'.symm.trans hn')

theorem Halts.iff_eq {run : Nat → Option ρ} {r r' : ρ} (h : Halts run r) (hs : Steady run) :
    Halts run r' ↔ r' = r := by
  constructor
  · intro h'
    exact h'.unique hs h
  · rintro rfl
    exact h

theorem Steady.map {run : Nat → Option ρ} (h : Steady run) (f : ρ → α) :
    Steady fun fuel => (run fuel).map f := by
  intro fuel a ha
  obtain ⟨r, hr, hf⟩ := Option.map_eq_some_iff.mp ha
  exact Option.map_eq_some_iff.mpr ⟨r, h hr, hf⟩

theorem Steady.bind {run : Nat → Option α} {next : Nat → α → Option β} (h : Steady run)
    (hnext : ∀ a, Steady (next · a)) : Steady fun fuel => (run fuel).bind (next fuel) := by
  intro fuel b hb
  obtain ⟨a, ha, hb⟩ := Option.bind_eq_some_iff.mp hb
  exact Option.bind_eq_some_iff.mpr ⟨a, h ha, hnext a hb⟩

theorem Halts.map {run : Nat → Option ρ} {r : ρ} (h : Halts run r) (f : ρ → α) :
    Halts (fun fuel => (run fuel).map f) (f r) := by
  obtain ⟨fuel, h⟩ := h
  exact ⟨fuel, Option.map_eq_some_iff.mpr ⟨r, h, rfl⟩⟩

theorem halts_map {run : Nat → Option ρ} {f : ρ → α} {a : α} :
    Halts (fun fuel => (run fuel).map f) a ↔ ∃ r, Halts run r ∧ f r = a := by
  constructor
  · rintro ⟨fuel, h⟩
    obtain ⟨r, hr, hf⟩ := Option.map_eq_some_iff.mp h
    exact ⟨r, ⟨fuel, hr⟩, hf⟩
  · rintro ⟨r, h, rfl⟩
    exact h.map f

/-! ## A list of computations -/

theorem steady_mapM {run : Nat → α → Option β} (h : ∀ a, Steady (run · a)) (as : List α) :
    Steady fun fuel => as.mapM (run fuel) := by
  induction as with
  | nil => exact steady_const _
  | cons a as ih =>
      intro fuel bs hbs
      simp only [List.mapM_cons, Option.bind_eq_bind, Option.bind_eq_some_iff] at hbs ih ⊢
      obtain ⟨b, hb, bs', hbs', hcons⟩ := hbs
      exact ⟨b, h a hb, bs', ih hbs', hcons⟩

namespace Outcome

/-- First one computation and then, unless it ends with a fault, the next. -/
inductive Then (first : Outcome σ → Prop) (next : σ → Outcome σ → Prop) : Outcome σ → Prop where
  | fault {cause : Fault} {s : σ} (h : first (.fault cause s)) : Then first next (.fault cause s)
  | ok {s : σ} {o : Outcome σ} (h : first (.ok s)) (hnext : next s o) : Then first next o

theorem then_ok {s : σ} {next : σ → Outcome σ → Prop} {o : Outcome σ} :
    Then (· = .ok s) next o ↔ next s o := by
  constructor
  · intro h
    cases h with
    | fault h => cases h
    | ok h hnext =>
        obtain rfl := Outcome.ok.inj h
        exact hnext
  · exact .ok rfl

theorem then_fault {cause : Fault} {s : σ} {next : σ → Outcome σ → Prop} {o : Outcome σ} :
    Then (· = .fault cause s) next o ↔ o = .fault cause s := by
  constructor
  · intro h
    cases h with
    | fault h => exact h
    | ok h _ => cases h
  · rintro rfl
    exact .fault rfl

theorem then_done {first : Outcome σ → Prop} {o : Outcome σ} :
    Then first (fun s o => o = .ok s) o ↔ first o := by
  constructor
  · intro h
    cases h with
    | fault h => exact h
    | ok h hnext => exact hnext ▸ h
  · intro h
    cases o with
    | ok s => exact .ok h rfl
    | fault cause s => exact .fault h

theorem Then.imp {first first' : Outcome σ → Prop} {next next' : σ → Outcome σ → Prop}
    {o : Outcome σ} (h : Then first next o) (hf : ∀ o, first o → first' o)
    (hn : ∀ s o, next s o → next' s o) : Then first' next' o := by
  cases h with
  | fault h => exact .fault (hf _ h)
  | ok h hnext => exact .ok (hf _ h) (hn _ _ hnext)

theorem then_congr {first first' : Outcome σ → Prop} {next next' : σ → Outcome σ → Prop}
    {o : Outcome σ} (hf : ∀ o, first o ↔ first' o) (hn : ∀ s o, next s o ↔ next' s o) :
    Then first next o ↔ Then first' next' o :=
  ⟨fun h => h.imp (fun o => (hf o).mp) fun s o => (hn s o).mp,
    fun h => h.imp (fun o => (hf o).mpr) fun s o => (hn s o).mpr⟩

theorem then_assoc {first : Outcome σ → Prop} {second third : σ → Outcome σ → Prop}
    {o : Outcome σ} :
    Then (Then first second) third o ↔ Then first (fun s => Then (second s) third) o := by
  constructor
  · intro h
    cases h with
    | fault h =>
        cases h with
        | fault h => exact .fault h
        | ok h h' => exact .ok h (.fault h')
    | ok h hthird =>
        cases h with
        | ok h h' => exact .ok h (.ok h' hthird)
  · intro h
    cases h with
    | fault h => exact .fault (.fault h)
    | ok h hnext =>
        cases hnext with
        | fault h' => exact .fault (.ok h h')
        | ok h' hthird => exact .ok (.ok h h') hthird

/-- Runs the next computation on what the first one leaves. -/
def chain (first : Option (Outcome σ)) (next : σ → Option (Outcome σ)) : Option (Outcome σ) :=
  match first with
  | some (.ok s) => next s
  | ended => ended

theorem chain_eq_some {first : Option (Outcome σ)} {next : σ → Option (Outcome σ)}
    {o : Outcome σ} :
    chain first next = some o ↔ Then (first = some ·) (next · = some ·) o := by
  constructor
  · intro h
    rcases first with _ | s | ⟨cause, s⟩
    · cases h
    · exact .ok rfl h
    · obtain rfl := Option.some.inj h
      exact .fault rfl
  · intro h
    cases h with
    | fault h => rw [h]; rfl
    | ok h hnext => rw [h]; exact hnext

theorem steady_chain {first : Nat → Option (Outcome σ)} {next : Nat → σ → Option (Outcome σ)}
    (hf : Steady first) (hn : ∀ s, Steady (next · s)) :
    Steady fun fuel => chain (first fuel) (next fuel) := by
  intro fuel o h
  dsimp only at h ⊢
  rw [chain_eq_some] at h ⊢
  exact h.imp (fun _ ho => hf ho) fun s _ ho => hn s ho

theorem halts_chain {first : Nat → Option (Outcome σ)} {next : Nat → σ → Option (Outcome σ)}
    (hf : Steady first) (hn : ∀ s, Steady (next · s)) {o : Outcome σ} :
    Halts (fun fuel => chain (first fuel) (next fuel)) o ↔
      Then (Halts first) (fun s => Halts (next · s)) o := by
  constructor
  · rintro ⟨fuel, h⟩
    rw [chain_eq_some] at h
    exact h.imp (fun _ ho => ⟨fuel, ho⟩) fun _ _ ho => ⟨fuel, ho⟩
  · intro h
    cases h with
    | fault h =>
        obtain ⟨fuel, h⟩ := h
        exact ⟨fuel, chain_eq_some.mpr (.fault h)⟩
    | ok h hnext =>
        obtain ⟨m, hm⟩ := h
        obtain ⟨n, hn'⟩ := hnext
        have hm' := hf.mono (Nat.le_max_left m n) hm
        have hn' := (hn _).mono (Nat.le_max_right m n) hn'
        exact ⟨max m n, chain_eq_some.mpr (.ok hm' hn')⟩

theorem steady_chain_some (o : Outcome σ) {next : Nat → σ → Option (Outcome σ)}
    (hn : ∀ s, Steady (next · s)) : Steady fun fuel => chain (some o) (next fuel) :=
  steady_chain (steady_const _) hn

theorem halts_chain_some {o o' : Outcome σ} {next : Nat → σ → Option (Outcome σ)}
    (hn : ∀ s, Steady (next · s)) :
    Halts (fun fuel => chain (some o) (next fuel)) o' ↔
      Then (· = o) (fun s => Halts (next · s)) o' :=
  (halts_chain (steady_const _) hn).trans (then_congr (fun _ => halts_some) fun _ _ => Iff.rfl)

/-- The same kind of ending, in related states. -/
inductive Rel (okay failed : σ → τ → Prop) : Outcome σ → Outcome τ → Prop where
  | ok {s : σ} {t : τ} (h : okay s t) : Rel okay failed (.ok s) (.ok t)
  | fault {cause : Fault} {s : σ} {t : τ} (h : failed s t) :
      Rel okay failed (.fault cause s) (.fault cause t)

theorem Rel.imp {okay okay' failed failed' : σ → τ → Prop} {o : Outcome σ} {o' : Outcome τ}
    (h : Rel okay failed o o') (hok : ∀ s t, okay s t → okay' s t)
    (hfailed : ∀ s t, failed s t → failed' s t) : Rel okay' failed' o o' := by
  cases h with
  | ok h => exact .ok (hok _ _ h)
  | fault h => exact .fault (hfailed _ _ h)

/-- Outcomes are related to their images only. -/
theorem Rel.eq_map {f : σ → τ} {P : σ → τ → Prop} {o : Outcome σ} {o' : Outcome τ}
    (h : Rel P P o o') (hf : ∀ t, P o.state t → t = f o.state) : o' = o.map f := by
  cases h with
  | ok h => exact congrArg Outcome.ok (hf _ h)
  | fault h => exact congrArg (Outcome.fault _) (hf _ h)

theorem Rel.map {υ : Type} {okay failed : σ → τ → Prop} {okay' failed' : ρ → υ → Prop}
    {f : σ → ρ} {g : τ → υ} {o : Outcome σ} {o' : Outcome τ} (h : Rel okay failed o o')
    (hok : ∀ s t, okay s t → okay' (f s) (g t))
    (hfailed : ∀ s t, failed s t → failed' (f s) (g t)) :
    Rel okay' failed' (o.map f) (o'.map g) := by
  cases h with
  | ok h => exact .ok (hok _ _ h)
  | fault h => exact .fault (hfailed _ _ h)

theorem map_eq_map_iff {f : σ → ρ} {g : τ → ρ} {o : Outcome σ} {o' : Outcome τ} :
    o.map f = o'.map g ↔ Rel (fun s t => f s = g t) (fun s t => f s = g t) o o' := by
  constructor
  · intro h
    cases o with
    | ok s =>
        cases o' with
        | ok t => exact .ok (Outcome.ok.inj h)
        | fault cause t => cases h
    | fault cause s =>
        cases o' with
        | ok t => cases h
        | fault cause' t =>
            obtain ⟨rfl, hst⟩ := Outcome.fault.inj h
            exact .fault hst
  · intro h
    cases h with
    | ok h => exact congrArg Outcome.ok h
    | fault h => exact congrArg (Outcome.fault _) h

end Outcome

/-! ## Matching computations -/

/-- Both computations end or neither does, and their results are related. -/
structure Matches (R : α → β → Prop) (A : α → Prop) (B : β → Prop) : Prop where
  left : ∀ a, A a → ∃ b, B b ∧ R a b
  right : ∀ b, B b → ∃ a, A a ∧ R a b

namespace Matches

variable {R : α → β → Prop} {A : α → Prop} {B : β → Prop}

theorem single {a : α} {b : β} (h : R a b) : Matches R (· = a) (· = b) := by
  constructor
  · rintro a rfl
    exact ⟨b, rfl, h⟩
  · rintro b rfl
    exact ⟨a, rfl, h⟩

theorem congr {A' : α → Prop} {B' : β → Prop} (h : Matches R A B) (hA : ∀ a, A' a ↔ A a)
    (hB : ∀ b, B' b ↔ B b) : Matches R A' B' := by
  constructor
  · intro a ha
    obtain ⟨b, hb, hr⟩ := h.left a ((hA a).mp ha)
    exact ⟨b, (hB b).mpr hb, hr⟩
  · intro b hb
    obtain ⟨a, ha, hr⟩ := h.right b ((hB b).mp hb)
    exact ⟨a, (hA a).mpr ha, hr⟩

theorem mono {R' : α → β → Prop} (h : Matches R A B) (hR : ∀ a b, R a b → R' a b) :
    Matches R' A B := by
  constructor
  · intro a ha
    obtain ⟨b, hb, hr⟩ := h.left a ha
    exact ⟨b, hb, hR a b hr⟩
  · intro b hb
    obtain ⟨a, ha, hr⟩ := h.right b hb
    exact ⟨a, ha, hR a b hr⟩

/-- A computation that ends matches its result. -/
theorem of_halts {run : Nat → Option α} {a : α} {b : β} (h : Halts run a) (hs : Steady run)
    (hr : R a b) : Matches R (Halts run) (· = b) :=
  (single hr).congr (fun _ => h.iff_eq hs) fun _ => Iff.rfl

theorem trans {Q : β → γ → Prop} {C : γ → Prop} (h : Matches R A B) (h' : Matches Q B C) :
    Matches (fun a c => ∃ b, R a b ∧ Q b c) A C := by
  constructor
  · intro a ha
    obtain ⟨b, hb, hr⟩ := h.left a ha
    obtain ⟨c, hc, hq⟩ := h'.left b hb
    exact ⟨c, hc, b, hr, hq⟩
  · intro c hc
    obtain ⟨b, hb, hq⟩ := h'.right c hc
    obtain ⟨a, ha, hr⟩ := h.right b hb
    exact ⟨a, ha, b, hr, hq⟩

/-- Computations that go alike under every fuel match. -/
theorem of_fuel {run : Nat → Option α} {run' : Nat → Option β}
    (h : ∀ fuel, Option.Rel R (run fuel) (run' fuel)) : Matches R (Halts run) (Halts run') := by
  constructor
  · rintro a ⟨fuel, ha⟩
    have hfuel := h fuel
    rw [ha] at hfuel
    generalize hb : run' fuel = r at hfuel
    cases hfuel with
    | some hr => exact ⟨_, ⟨fuel, hb⟩, hr⟩
  · rintro b ⟨fuel, hb⟩
    have hfuel := h fuel
    rw [hb] at hfuel
    generalize ha : run fuel = r at hfuel
    cases hfuel with
    | some hr => exact ⟨_, ⟨fuel, ha⟩, hr⟩

theorem symm (h : Matches R A B) : Matches (fun b a => R a b) B A := ⟨h.right, h.left⟩

/-- Matching computations followed by matching ones match. -/
theorem andThen {okay okay' failed : σ → τ → Prop} {A : Outcome σ → Prop}
    {B : Outcome τ → Prop} {next : σ → Outcome σ → Prop} {next' : τ → Outcome τ → Prop}
    (h : Matches (Outcome.Rel okay failed) A B)
    (hnext : ∀ s t, okay s t → Matches (Outcome.Rel okay' failed) (next s) (next' t)) :
    Matches (Outcome.Rel okay' failed) (Outcome.Then A next) (Outcome.Then B next') := by
  constructor
  · intro o ho
    cases ho with
    | fault ho =>
        obtain ⟨_, hb, hr⟩ := h.left _ ho
        cases hr with
        | fault hr => exact ⟨_, .fault hb, .fault hr⟩
    | ok ho ho' =>
        obtain ⟨_, hb, hr⟩ := h.left _ ho
        cases hr with
        | ok hr =>
            obtain ⟨b, hb', hr'⟩ := (hnext _ _ hr).left _ ho'
            exact ⟨b, .ok hb hb', hr'⟩
  · intro o ho
    cases ho with
    | fault ho =>
        obtain ⟨_, ha, hr⟩ := h.right _ ho
        cases hr with
        | fault hr => exact ⟨_, .fault ha, .fault hr⟩
    | ok ho ho' =>
        obtain ⟨_, ha, hr⟩ := h.right _ ho
        cases hr with
        | ok hr =>
            obtain ⟨a, ha', hr'⟩ := (hnext _ _ hr).right _ ho'
            exact ⟨a, .ok ha ha', hr'⟩

end Matches

end TapeScript
