import TapeScript.Bracket

/-! Plans of scripts that are known to end. A body that works on a cell is made of bytes
that act on that cell alone, of counted loops and of dead loops. A counted loop clears the
next cell, counts it up and runs an inner body on the cell after that, once for each count.
A dead loop clears the next cell and opens a loop there, so that what it holds never runs. -/

namespace TapeScript.Sample

structure Shape where
  depth : Nat := 3
  width : Nat := 8
  repeats : UInt8 := 5
  deriving Repr, DecidableEq

/-- The highest cell set aside for the scripts of this shape. -/
def Shape.topCell (shape : Shape) : Nat := 2 * shape.depth + 2

/-- Bytes in any order, with balanced brackets. -/
inductive Filler where
  | done
  | byte (byte : UInt8) (rest : Filler)
  | nest (inner rest : Filler)
  deriving Repr, DecidableEq

inductive Plan where
  | done
  | byte (byte : UInt8) (rest : Plan)
  | dead (filler : Filler) (rest : Plan)
  | counted (count : Nat) (inner rest : Plan)
  deriving Repr, DecidableEq

/-- The commands that act on the current cell alone. -/
def cellBytes : List UInt8 := ['+', '-', '.', ','].map (·.toUInt8)

/-- Bytes that no built-in command uses. -/
def idleBytes : List UInt8 :=
  [' ', '\n', '\t', 'a', 'b', 'z', '#'].map (·.toUInt8)

/-- The commands other than brackets. -/
def fillerBytes : List UInt8 := ['+', '-', '>', '<', '.', ','].map (·.toUInt8)

namespace Filler

def length : Filler → Nat
  | done => 0
  | byte _ rest | nest _ rest => rest.length + 1

def render : Filler → List UInt8
  | done => []
  | byte b rest => b :: rest.render
  | nest inner rest => '['.toUInt8 :: (inner.render ++ ']'.toUInt8 :: rest.render)

/-- What may come of the draws: no more items in a row than the shape allows, and brackets
no deeper than `depth`. -/
def Fits (shape : Shape) : (depth items : Nat) → Filler → Prop
  | _, _, done => True
  | depth, items, byte b rest =>
      0 < items ∧ b ∈ fillerBytes ∧ rest.Fits shape depth (items - 1)
  | depth, items, nest inner rest =>
      0 < items ∧ 0 < depth ∧ inner.Fits shape (depth - 1) shape.width ∧
        rest.Fits shape depth (items - 1)

end Filler

namespace Plan

def length : Plan → Nat
  | done => 0
  | byte _ rest | dead _ rest | counted _ _ rest => rest.length + 1

/-- Goes to the next cell and clears it. -/
def clearNext : List UInt8 := ['>', '[', '-', ']'].map (·.toUInt8)

/-- Begins a loop that works on the next cell. -/
def enter : List UInt8 := ['[', '>'].map (·.toUInt8)

/-- Counts down and ends the loop, and goes back to the cell before. -/
def leave : List UInt8 := ['<', '-', ']', '<'].map (·.toUInt8)

def render : Plan → List UInt8
  | done => []
  | byte b rest => b :: rest.render
  | dead filler rest =>
      clearNext ++ '['.toUInt8 :: (filler.render ++ ']'.toUInt8 :: '<'.toUInt8 :: rest.render)
  | counted count inner rest =>
      clearNext ++ List.replicate count '+'.toUInt8 ++ enter ++ inner.render ++ leave ++
        rest.render

/-- What may come of the draws: between one item and as many as the shape allows in every
body, and counted loops no deeper than `depth`. -/
def Fits (shape : Shape) : (depth items : Nat) → Plan → Prop
  | _, _, done => True
  | depth, items, byte b rest =>
      0 < items ∧ (b ∈ cellBytes ∨ b ∈ idleBytes) ∧ rest.Fits shape depth (items - 1)
  | depth, items, dead filler rest =>
      0 < items ∧ (∃ d ≤ 3, filler.Fits shape d shape.width) ∧
        rest.Fits shape depth (items - 1)
  | depth, items, counted count inner rest =>
      0 < items ∧ 0 < depth ∧ (1 ≤ count ∧ count ≤ max shape.repeats.toNat 1) ∧
        (0 < inner.length ∧ inner.Fits shape (depth - 1) (max shape.width 1)) ∧
        rest.Fits shape depth (items - 1)

end Plan

/-- The plans of the scripts of a shape. -/
def Shape.Allows (shape : Shape) (plan : Plan) : Prop :=
  0 < plan.length ∧ plan.Fits shape shape.depth (max shape.width 1)

end TapeScript.Sample
