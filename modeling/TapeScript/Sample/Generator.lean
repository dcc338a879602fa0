import TapeScript.Sample.Random
import TapeScript.Sample.Plan

/-! Plans drawn at random. Every draw may reject as many words as there are tries. -/

namespace TapeScript.Sample

/-- The kinds of item, by the part of the fractions below which they are chosen: a quarter,
thirty-five hundredths, four tenths. -/
def countedBelow : Nat := 1 <<< 51
def deadBelow : Nat := 3152519739159347
def idleBelow : Nat := 3602879701896397

namespace Filler

def drawItems (tries : Nat) (inner : Option (Draw Filler)) : Nat → Draw Filler
  | 0 => pure done
  | items + 1 => do
    let nested : Option Filler ← match inner with
      | none => pure none
      | some draw => if ← Draw.oneInFive then some <$> draw else pure none
    match nested with
    | some filler => return nest filler (← drawItems tries inner items)
    | none =>
      let b ← Draw.pick tries fillerBytes
      return byte b (← drawItems tries inner items)

def draw (shape : Shape) (tries : Nat) : (depth : Nat) → Draw Filler
  | 0 => do
    let items ← Draw.upTo tries shape.width
    drawItems tries none items
  | depth + 1 => do
    let items ← Draw.upTo tries shape.width
    drawItems tries (some (draw shape tries depth)) items

end Filler

namespace Plan

def drawItems (shape : Shape) (tries : Nat) (inner : Option (Draw Plan)) : Nat → Draw Plan
  | 0 => pure done
  | items + 1 => do
    let roll ← Draw.fraction
    match inner.filter fun _ => roll < countedBelow with
    | some draw =>
      let count ← Draw.upToNarrow tries (shape.repeats.toNat - 1)
      let plan ← draw
      return counted (count + 1) plan (← drawItems shape tries inner items)
    | none =>
      if roll < deadBelow then
        let depth ← Draw.upTo tries 3
        let filler ← Filler.draw shape tries depth
        return dead filler (← drawItems shape tries inner items)
      else if roll < idleBelow then
        let b ← Draw.pick tries idleBytes
        return byte b (← drawItems shape tries inner items)
      else
        let b ← Draw.pick tries cellBytes
        return byte b (← drawItems shape tries inner items)

def draw (shape : Shape) (tries : Nat) : (depth : Nat) → Draw Plan
  | 0 => do
    let items ← Draw.upTo tries (shape.width - 1)
    drawItems shape tries none (items + 1)
  | depth + 1 => do
    let items ← Draw.upTo tries (shape.width - 1)
    drawItems shape tries (some (draw shape tries depth)) (items + 1)

end Plan

/-- A number of plans, one after the other. -/
def drawPlans (shape : Shape) (tries : Nat) : Nat → Draw (List Plan)
  | 0 => pure []
  | count + 1 => do
    let plan ← Plan.draw shape tries shape.depth
    return plan :: (← drawPlans shape tries count)

/-- The first scripts of a shape that come of a seed; none if a draw fails. -/
def scripts (shape : Shape) (tries count : Nat) (seed : UInt64) : Option (List (List UInt8)) :=
  ((drawPlans shape tries count).run (.ofSeed seed)).map fun (plans, _) => plans.map Plan.render

end TapeScript.Sample
