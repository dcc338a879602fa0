import TapeScript.Bracket

/-! The conventional way to run a script, first pass: which bracket belongs to which. -/

namespace TapeScript.TwoPass

inductive Instruction where
  | increment
  | decrement
  | right
  | left
  | output
  | input
  | bracket (side : Bracket)
  | nothing
  deriving Repr, DecidableEq

def Instruction.ofByte (byte : UInt8) : Instruction :=
  match Latin.char byte with
  | '+' => increment
  | '-' => decrement
  | '>' => right
  | '<' => left
  | '.' => output
  | ',' => input
  | '[' => bracket .opening
  | ']' => bracket .closing
  | _ => nothing

inductive Failure where
  | unmatched (side : Bracket) (position : Nat)
  | pastEnd (position : Nat)
  | belowZero (position : Nat)
  deriving Repr, DecidableEq

def Failure.message : Failure → String
  | unmatched .opening position => s!"unmatched '[' at {position}"
  | unmatched .closing position => s!"unmatched ']' at {position}"
  | pastEnd position => s!"pointer past the end at {position}"
  | belowZero position => s!"pointer below zero at {position}"

/-- For every position of the program, the position of the other bracket of its pair;
none where there is no bracket. -/
abbrev JumpTable := Array (Option Nat)

/-- Pairs the brackets from `position` on. The brackets that wait for their partners stand
innermost first. -/
def pairFrom (position : Nat) (waiting : List Nat) (table : JumpTable) :
    List UInt8 → Except Failure JumpTable
  | [] =>
    match waiting with
    | [] => .ok table
    | innermost :: _ => .error (.unmatched .opening innermost)
  | byte :: bytes =>
    match Bracket.ofByte? byte with
    | none => pairFrom (position + 1) waiting table bytes
    | some .opening => pairFrom (position + 1) (position :: waiting) table bytes
    | some .closing =>
      match waiting with
      | [] => .error (.unmatched .closing position)
      | partner :: waiting =>
        pairFrom (position + 1) waiting
          ((table.setIfInBounds partner (some position)).setIfInBounds position (some partner))
          bytes

def jumpTable (program : List UInt8) : Except Failure JumpTable :=
  pairFrom 0 [] (Array.replicate program.length none) program

end TapeScript.TwoPass
