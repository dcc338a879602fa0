import TapeScript.Proofs.Computation
import TapeScript.Sample.Generator

/-! # Draws with more tries

What is drawn with some number of tries is drawn with more of them too. -/

namespace TapeScript.Sample

/-- More tries do not change what is drawn, from whatever random state. -/
def Draw.Settled {α : Type} (draw : Nat → Draw α) : Prop :=
  ∀ r, Steady fun tries => (draw tries).run r

namespace Draw

variable {α β : Type}

theorem settled_const (draw : Draw α) : Settled fun _ => draw := fun r => steady_const (draw.run r)

theorem Settled.bind {draw : Nat → Draw α} {next : Nat → α → Draw β} (h : Settled draw)
    (hnext : ∀ a, Settled (next · a)) : Settled fun tries => draw tries >>= next tries := by
  intro r
  simp only [StateT.run_bind]
  exact (h r).bind fun (a, s) => hnext a s

theorem Settled.map {draw : Nat → Draw α} (h : Settled draw) (g : α → β) :
    Settled fun tries => g <$> draw tries := by
  simp only [← bind_pure_comp]
  exact h.bind fun a => settled_const _

/-- A word that was accepted is accepted again. -/
theorem settled_firstSome (test : UInt64 → Option α) : Settled (firstSome test) := by
  intro r tries
  induction tries generalizing r with
  | zero => exact fun _ h => nomatch h
  | succ tries ih =>
      intro a h
      dsimp only at h ih ⊢
      rw [firstSome, StateT.run_bind] at h ⊢
      obtain ⟨⟨w, s⟩, hw, h⟩ := Option.bind_eq_some_iff.mp h
      refine Option.bind_eq_some_iff.mpr ⟨⟨w, s⟩, hw, ?_⟩
      dsimp only at h ⊢
      split at h
      · exact h
      · exact ih s h

theorem settled_upTo (top : Nat) : Settled (upTo · top) := settled_firstSome _

theorem settled_upToNarrow (top : Nat) : Settled (upToNarrow · top) := settled_firstSome _

theorem settled_pick (choices : List α) (h : 0 < choices.length) : Settled (pick · choices h) :=
  (settled_upTo _).bind fun _ => settled_const _

end Draw

namespace Filler

/-- Items are drawn in the same way if what they hold is. -/
theorem settled_drawItems (inner : Option (Nat → Draw Filler))
    (hinner : ∀ draw ∈ inner, Draw.Settled draw) (items : Nat) :
    Draw.Settled fun tries => drawItems tries (inner.map (· tries)) items := by
  induction items with
  | zero => cases inner <;> exact Draw.settled_const (pure done)
  | succ items ih =>
      have hbyte := (Draw.settled_pick fillerBytes (by decide)).bind fun b =>
        ih.bind fun rest => Draw.settled_const (pure (byte b rest))
      have hnest (filler : Filler) := ih.bind fun rest => Draw.settled_const (pure (nest filler rest))
      cases inner with
      | none =>
          exact (Draw.settled_const (pure none)).bind (Option.forall.mpr ⟨hbyte, hnest⟩)
      | some draw =>
          refine (Draw.settled_const Draw.oneInFive).bind fun chosen => ?_
          cases chosen with
          | false =>
              exact (Draw.settled_const (pure none)).bind (Option.forall.mpr ⟨hbyte, hnest⟩)
          | true =>
              exact ((hinner draw rfl).map some).bind (Option.forall.mpr ⟨hbyte, hnest⟩)

theorem settled_draw (shape : Shape) (depth : Nat) : Draw.Settled (draw shape · depth) := by
  induction depth with
  | zero =>
      exact (Draw.settled_upTo _).bind fun items =>
        settled_drawItems none (fun _ h => nomatch h) items
  | succ depth ih =>
      refine (Draw.settled_upTo _).bind fun items => ?_
      refine settled_drawItems (some (draw shape · depth)) ?_ items
      rintro _ ⟨⟩
      exact ih

end Filler

namespace Plan

theorem settled_drawItems (shape : Shape) (inner : Option (Nat → Draw Plan))
    (hinner : ∀ draw ∈ inner, Draw.Settled draw) (items : Nat) :
    Draw.Settled fun tries => drawItems shape tries (inner.map (· tries)) items := by
  induction items with
  | zero => cases inner <;> exact Draw.settled_const (pure done)
  | succ items ih =>
      have hbyte (choices : List UInt8) (h : 0 < choices.length) : Draw.Settled fun tries => (do
          let b ← Draw.pick tries choices h
          return byte b (← drawItems shape tries (inner.map (· tries)) items) : Draw Plan) :=
        (Draw.settled_pick choices h).bind fun _ => ih.bind fun _ => Draw.settled_const _
      have hrest (roll : Nat) : Draw.Settled fun tries => (do
          if roll < deadBelow then
            let depth ← Draw.upTo tries 3
            let filler ← Filler.draw shape tries depth
            return dead filler (← drawItems shape tries (inner.map (· tries)) items)
          else if roll < idleBelow then
            let b ← Draw.pick tries idleBytes
            return byte b (← drawItems shape tries (inner.map (· tries)) items)
          else
            let b ← Draw.pick tries cellBytes
            return byte b (← drawItems shape tries (inner.map (· tries)) items) : Draw Plan) := by
        split
        · exact (Draw.settled_upTo 3).bind fun depth => (Filler.settled_draw shape depth).bind
            fun filler => ih.bind fun _ => Draw.settled_const _
        · split
          · exact hbyte idleBytes _
          · exact hbyte cellBytes _
      simp only [drawItems]
      refine (Draw.settled_const Draw.fraction).bind fun roll => ?_
      cases inner with
      | none => exact hrest roll
      | some draw =>
          by_cases hroll : roll < countedBelow
          · simp only [Option.map_some, Option.filter, hroll, decide_true, if_true] at ih ⊢
            exact (Draw.settled_upToNarrow _).bind fun count => (hinner draw rfl).bind
              fun plan => ih.bind fun _ => Draw.settled_const _
          · simp only [Option.map_some, Option.filter, hroll, decide_false] at hrest ⊢
            exact hrest roll

theorem settled_draw (shape : Shape) (depth : Nat) : Draw.Settled (draw shape · depth) := by
  induction depth with
  | zero =>
      exact (Draw.settled_upTo _).bind fun items =>
        settled_drawItems shape none (fun _ h => nomatch h) (items + 1)
  | succ depth ih =>
      refine (Draw.settled_upTo _).bind fun items => ?_
      refine settled_drawItems shape (some (draw shape · depth)) ?_ (items + 1)
      rintro _ ⟨⟩
      exact ih

end Plan

theorem settled_drawPlans (shape : Shape) (count : Nat) :
    Draw.Settled (drawPlans shape · count) := by
  induction count with
  | zero => exact Draw.settled_const (pure [])
  | succ count ih =>
      exact (Plan.settled_draw shape shape.depth).bind fun _ => ih.bind fun _ =>
        Draw.settled_const _

/-- The scripts of a seed do not depend on the number of tries that sufficed for them. -/
theorem steady_scripts (shape : Shape) (count : Nat) (seed : UInt64) :
    Steady (scripts shape · count seed) :=
  (settled_drawPlans shape count (.ofSeed seed)).map _

end TapeScript.Sample
