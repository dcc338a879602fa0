import TapeScript.TwoPass.Program

/-! The conventional way to run a script, second pass: an instruction pointer that jumps
between paired brackets. -/

namespace TapeScript.TwoPass

structure State where
  pointer : Nat := 0
  head : Nat := 0
  cells : Array UInt8
  input : List UInt8
  output : Array UInt8 := #[]
  deriving Repr, DecidableEq

namespace State

def start (length : Nat) (input : List UInt8) : State :=
  { cells := Array.replicate length 0, input }

def current (s : State) : UInt8 := s.cells.getD s.head 0

def setCurrent (byte : UInt8) : State → State
  | ⟨pointer, head, cells, input, output⟩ =>
    ⟨pointer, head, cells.setIfInBounds head byte, input, output⟩

/-- Goes to the instruction behind this position. -/
def continueBehind (position : Nat) (s : State) : State := { s with pointer := position + 1 }

/-- Executes the instruction under the pointer. An opening bracket over a zero cell and a
closing one over any other go on behind their partners. -/
def next (table : JumpTable) (instruction : Instruction) (s : State) : Except Failure State :=
  let here := s.pointer
  let partner := (table.getD here none).getD here
  match instruction with
  | .increment => .ok ((s.setCurrent (s.current + 1)).continueBehind here)
  | .decrement => .ok ((s.setCurrent (s.current - 1)).continueBehind here)
  | .right =>
    if s.cells.size ≤ s.head + 1 then .error (.pastEnd here)
    else .ok (continueBehind here { s with head := s.head + 1 })
  | .left =>
    if s.head = 0 then .error (.belowZero here)
    else .ok (continueBehind here { s with head := s.head - 1 })
  | .output => .ok (continueBehind here { s with output := s.output.push s.current })
  | .input =>
    match s.input with
    | byte :: rest => .ok (({ s with input := rest }.setCurrent byte).continueBehind here)
    | [] => .ok (s.continueBehind here)
  | .bracket .opening => .ok (s.continueBehind (if s.current = 0 then partner else here))
  | .bracket .closing => .ok (s.continueBehind (if s.current = 0 then here else partner))
  | .nothing => .ok (s.continueBehind here)

/-- Executes instructions until the pointer leaves the program; none if the fuel does not
last. -/
def runWith (program : Array UInt8) (table : JumpTable) :
    Nat → State → Option (Except Failure State)
  | 0, _ => none
  | fuel + 1, s =>
    match program[s.pointer]? with
    | none => some (.ok s)
    | some byte =>
      match s.next table (.ofByte byte) with
      | .error failure => some (.error failure)
      | .ok s => runWith program table fuel s

end State

/-- Both passes. Answers with the output. -/
def run (fuel : Nat) (program input : List UInt8) (length : Nat) :
    Option (Except Failure (Array UInt8)) :=
  match jumpTable program with
  | .error failure => some (.error failure)
  | .ok table =>
    ((State.start length input).runWith program.toArray table fuel).map (·.map (·.output))

end TapeScript.TwoPass
