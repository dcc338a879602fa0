import TapeScript.Command

/-! Brackets and their balance, over any text whose brackets can be told apart. -/

namespace TapeScript

inductive Bracket where
  | opening
  | closing
  deriving Repr, DecidableEq

namespace Bracket

def ofByte? (byte : UInt8) : Option Bracket :=
  if byte = '['.toUInt8 then some opening
  else if byte = ']'.toUInt8 then some closing
  else none

def ofCommand? (command : Command) : Option Bracket :=
  match command.kind with
  | .simple _ => none
  | .loopOpen => some opening
  | .loopClose => some closing

/-- The depth behind the brackets, if none of them closes what was never opened. -/
def depthFrom? (depth : Nat) : List Bracket → Option Nat
  | [] => some depth
  | opening :: rest => depthFrom? (depth + 1) rest
  | closing :: rest =>
    match depth with
    | 0 => none
    | depth + 1 => depthFrom? depth rest

def Balanced (brackets : List Bracket) : Prop := depthFrom? 0 brackets = some 0

instance (brackets : List Bracket) : Decidable (Balanced brackets) :=
  inferInstanceAs (Decidable (_ = _))

/-- The greatest depth reached from `depth` on, where a closing bracket without an opening
one stays at depth 0. -/
def peakFrom (depth : Nat) : List Bracket → Nat
  | [] => depth
  | opening :: rest => peakFrom (depth + 1) rest
  | closing :: rest => max depth (peakFrom (depth - 1) rest)

def ofBytes (bytes : List UInt8) : List Bracket := bytes.filterMap ofByte?

def ofCommands (commands : List Command) : List Bracket := commands.filterMap ofCommand?

end Bracket

end TapeScript
