import TapeScript.Latin

/-! The causes that stop a run, or keep it from starting, and their wording. Running
out of input is not among them: reading past the end is no fault. -/

namespace TapeScript

inductive Fault where
  | outOfRange (position : Int) (length : Nat)
  | tokenTaken (token : UInt8)
  | unmatchedClose
  | unclosedLoops (count : Nat)
  | stream (text : String)
  | limitReached (limit : Nat)
  | emptyTape
  | custom (text : String)
  deriving Repr, DecidableEq

namespace Fault

def message : Fault → String
  | outOfRange position length =>
      s!"index {position} is out of range for a tape of {length} cells"
  | tokenTaken token => "command " ++ Latin.quoted token ++ " is already registered"
  | unmatchedClose => "loop close without a matching loop open"
  | unclosedLoops count => s!"script ended with {count} unterminated loop(s)"
  | stream text => "i/o failure: " ++ text
  | limitReached limit => s!"step limit of {limit} exceeded"
  | emptyTape => "tape length must be at least one cell"
  | custom text => text

/-- Positions are reported as signed 64-bit numbers; one beyond them is reported as the
nearest that they hold. -/
def reportable (position : Int) : Int :=
  max Int64.minValue.toInt (min position Int64.maxValue.toInt)

def outside (position : Int) (length : Nat) : Fault :=
  outOfRange (reportable position) length

theorem reportable_of_le {position : Int} (low : Int64.minValue.toInt ≤ position)
    (high : position ≤ Int64.maxValue.toInt) : reportable position = position := by
  unfold reportable
  omega

end Fault

end TapeScript
