import TapeScript.Sample.Generator

/-! # Plans that are drawn

Whatever the random words, a plan that is drawn is one that its shape allows. -/

namespace TapeScript.Sample

/-- Everything that may come of the draw has this property. -/
def Draw.Yields {α : Type} (draw : Draw α) (P : α → Prop) : Prop :=
  ∀ r a r', draw.run r = some (a, r') → P a

namespace Draw

variable {α β : Type} {P : α → Prop} {R : β → Prop}

theorem Yields.mono {R : α → Prop} {draw : Draw α} (h : draw.Yields P) (hPR : ∀ a, P a → R a) :
    draw.Yields R :=
  fun r a r' hrun => hPR a (h r a r' hrun)

theorem yields_true (draw : Draw α) : draw.Yields fun _ => True := fun _ _ _ _ => trivial

theorem yields_pure {a : α} (h : P a) : Draw.Yields (pure a) P := by
  intro r b r' hrun
  obtain ⟨rfl, -⟩ := Prod.mk.inj (Option.some.inj hrun)
  exact h

theorem Yields.bind {draw : Draw α} {next : α → Draw β} (h : draw.Yields P)
    (hnext : ∀ a, P a → (next a).Yields R) : Draw.Yields (draw >>= next) R := by
  intro r b r' hrun
  rw [StateT.run_bind] at hrun
  obtain ⟨⟨a, s⟩, ha, hb⟩ := Option.bind_eq_some_iff.mp hrun
  exact hnext a (h r a s ha) s b r' hb

theorem Yields.map {draw : Draw α} (h : draw.Yields P) {g : α → β} (hg : ∀ a, P a → R (g a)) :
    Draw.Yields (g <$> draw) R := by
  rw [← bind_pure_comp]
  exact h.bind fun a ha => yields_pure (hg a ha)

theorem yields_pick {tries : Nat} {choices : List α} (h : 0 < choices.length) :
    (pick tries choices h).Yields (· ∈ choices) :=
  (yields_true _).bind fun _ _ => yields_pure (List.get_mem _ _)

end Draw

namespace Filler

variable {shape : Shape} {depth items items' tries : Nat} {filler : Filler}

theorem Fits.mono (h : filler.Fits shape depth items) (hle : items ≤ items') :
    filler.Fits shape depth items' := by
  induction filler generalizing items items' with
  | done => trivial
  | byte b rest ih =>
      obtain ⟨hpos, hb, hrest⟩ := h
      exact ⟨by omega, hb, ih hrest (by omega)⟩
  | nest inner rest _ ih =>
      obtain ⟨hpos, hdepth, hinner, hrest⟩ := h
      exact ⟨by omega, hdepth, hinner, ih hrest (by omega)⟩

theorem drawItems_yields {inner : Option (Draw Filler)}
    (hinner : ∀ draw ∈ inner, 0 < depth ∧ draw.Yields (·.Fits shape (depth - 1) shape.width))
    (items : Nat) : (drawItems tries inner items).Yields (·.Fits shape depth items) := by
  induction items with
  | zero => cases inner <;> exact Draw.yields_pure trivial
  | succ items ih =>
      have hbyte : Draw.Yields
          (do let b ← Draw.pick tries fillerBytes; return byte b (← drawItems tries inner items))
          (·.Fits shape depth (items + 1)) :=
        (Draw.yields_pick _).bind fun b hb => ih.bind fun rest hrest =>
          Draw.yields_pure ⟨Nat.succ_pos items, hb, hrest⟩
      cases inner with
      | none =>
          rw [drawItems]
          exact (Draw.yields_pure (P := (· = none)) rfl).bind fun _ h => h ▸ hbyte
      | some draw =>
          obtain ⟨hdepth, hdraw⟩ := hinner draw rfl
          rw [drawItems]
          refine (Draw.yields_true _).bind fun chosen _ => ?_
          cases chosen with
          | false => exact (Draw.yields_pure (P := (· = none)) rfl).bind fun _ h => h ▸ hbyte
          | true =>
              have hnested : Draw.Yields (some <$> draw)
                  fun nested => ∃ filler ∈ nested, filler.Fits shape (depth - 1) shape.width :=
                hdraw.map fun filler h => ⟨filler, rfl, h⟩
              refine hnested.bind ?_
              rintro _ ⟨filler, ⟨⟩, hfiller⟩
              exact ih.bind fun rest hrest =>
                Draw.yields_pure ⟨Nat.succ_pos items, hdepth, hfiller, hrest⟩

theorem draw_yields (shape : Shape) (tries depth : Nat) :
    (draw shape tries depth).Yields (·.Fits shape depth shape.width) := by
  induction depth with
  | zero =>
      refine (Draw.yields_true _).bind fun items _ => ?_
      exact (drawItems_yields (by simp) items).mono fun _ h => h.mono (Nat.le_of_lt_succ items.isLt)
  | succ depth ih =>
      refine (Draw.yields_true _).bind fun items _ => ?_
      refine (drawItems_yields ?_ items).mono fun _ h => h.mono (Nat.le_of_lt_succ items.isLt)
      rintro _ ⟨⟩
      exact ⟨Nat.succ_pos depth, ih⟩

end Filler

namespace Plan

variable {shape : Shape} {depth items items' tries : Nat} {plan : Plan}

theorem Fits.mono (h : plan.Fits shape depth items) (hle : items ≤ items') :
    plan.Fits shape depth items' := by
  induction plan generalizing items items' with
  | done => trivial
  | byte b rest ih =>
      obtain ⟨hpos, hb, hrest⟩ := h
      exact ⟨by omega, hb, ih hrest (by omega)⟩
  | dead filler rest ih =>
      obtain ⟨hpos, hfiller, hrest⟩ := h
      exact ⟨by omega, hfiller, ih hrest (by omega)⟩
  | counted count inner rest _ ih =>
      obtain ⟨hpos, hdepth, hcount, hinner, hrest⟩ := h
      exact ⟨by omega, hdepth, hcount, hinner, ih hrest (by omega)⟩

/-- A body as it is drawn for some depth. -/
def IsBody (shape : Shape) (depth : Nat) (plan : Plan) : Prop :=
  0 < plan.length ∧ plan.Fits shape depth (max shape.width 1)

theorem drawItems_yields {inner : Option (Draw Plan)}
    (hinner : ∀ draw ∈ inner, 0 < depth ∧ draw.Yields (IsBody shape (depth - 1))) (items : Nat) :
    (drawItems shape tries inner items).Yields fun plan =>
      plan.length = items ∧ plan.Fits shape depth items := by
  induction items with
  | zero => exact Draw.yields_pure ⟨rfl, trivial⟩
  | succ items ih =>
      rw [drawItems]
      refine (Draw.yields_true _).bind fun roll _ => ?_
      have hbyte {b : UInt8} (hb : b ∈ cellBytes ∨ b ∈ idleBytes) : Draw.Yields
          (do return byte b (← drawItems shape tries inner items))
          (fun plan => plan.length = items + 1 ∧ plan.Fits shape depth (items + 1)) :=
        ih.bind fun rest hrest => Draw.yields_pure
          ⟨congrArg Nat.succ hrest.1, Nat.succ_pos items, hb, hrest.2⟩
      split
      · rename_i draw hfilter
        obtain ⟨hdepth, hdraw⟩ := hinner draw (Option.eq_some_of_filter_eq_some hfilter)
        refine (Draw.yields_true _).bind fun count _ => hdraw.bind fun inner hbody => ?_
        refine ih.bind fun rest hrest => Draw.yields_pure ⟨congrArg Nat.succ hrest.1, ?_⟩
        have hcount := count.isLt
        exact ⟨Nat.succ_pos items, hdepth, ⟨by omega, by omega⟩, hbody, hrest.2⟩
      · split
        · refine (Draw.yields_true _).bind fun height _ => ?_
          refine (Filler.draw_yields shape tries height).bind fun filler hfiller => ?_
          refine ih.bind fun rest hrest => Draw.yields_pure ⟨congrArg Nat.succ hrest.1, ?_⟩
          exact ⟨Nat.succ_pos items, ⟨height, Nat.le_of_lt_succ height.isLt, hfiller⟩, hrest.2⟩
        · split
          · exact (Draw.yields_pick _).bind fun b hb => hbyte (.inr hb)
          · exact (Draw.yields_pick _).bind fun b hb => hbyte (.inl hb)

theorem draw_yields (shape : Shape) (tries depth : Nat) :
    (draw shape tries depth).Yields (IsBody shape depth) := by
  have hbody {depth : Nat} {items : Fin (shape.width - 1 + 1)} {plan : Plan}
      (h : plan.length = items + 1 ∧ plan.Fits shape depth (items + 1)) :
      IsBody shape depth plan := by
    have hlt := items.isLt
    exact ⟨by omega, h.2.mono (by omega)⟩
  induction depth with
  | zero =>
      refine (Draw.yields_true _).bind fun items _ => ?_
      exact (drawItems_yields (by simp) _).mono fun _ h => hbody h
  | succ depth ih =>
      refine (Draw.yields_true _).bind fun items _ => ?_
      refine (drawItems_yields ?_ _).mono fun _ h => hbody h
      rintro _ ⟨⟩
      exact ⟨Nat.succ_pos depth, ih⟩

end Plan

theorem drawPlans_yields (shape : Shape) (tries count : Nat) :
    (drawPlans shape tries count).Yields fun plans => ∀ plan ∈ plans, shape.Allows plan := by
  induction count with
  | zero => exact Draw.yields_pure (by simp)
  | succ count ih =>
      refine (Plan.draw_yields shape tries shape.depth).bind fun plan hplan => ?_
      refine ih.bind fun plans hplans => Draw.yields_pure ?_
      intro p hp
      rcases List.mem_cons.mp hp with rfl | hp
      · exact hplan
      · exact hplans p hp

/-- The scripts of a seed are those of plans that the shape allows. -/
theorem exists_plan_of_scripts {shape : Shape} {tries count : Nat} {seed : UInt64}
    {drawn : List (List UInt8)} (h : scripts shape tries count seed = some drawn) :
    ∀ script ∈ drawn, ∃ plan, shape.Allows plan ∧ plan.render = script := by
  obtain ⟨⟨plans, r⟩, hrun, rfl⟩ := Option.map_eq_some_iff.mp h
  intro script hscript
  obtain ⟨plan, hplan, rfl⟩ := List.mem_map.mp hscript
  exact ⟨plan, drawPlans_yields shape tries count _ _ _ hrun plan hplan, rfl⟩

end TapeScript.Sample
