import TapeScript.Engine
import TapeScript.Skeleton.Listing

/-! Whole runs of scripts that come in as streams of bytes. Every run takes the fuel that
each of its steps may use, and is none if that does not last. -/

namespace TapeScript

/-- What is fixed before a script starts. -/
structure Setup where
  dialect : Dialect := .builtin
  length : Nat := 65536
  length_pos : 0 < length := by decide
  limit : Option Nat := none

namespace Setup

/-- A tape needs a cell. Whether there is memory for its cells is not asked here. -/
def ofLength (dialect : Dialect) (length : Nat) (limit : Option Nat) : Except Fault Setup :=
  if h : 0 < length then .ok ⟨dialect, length, h, limit⟩ else .error .emptyTape

def start (setup : Setup) (input : Source) (output : Sink) : Engine :=
  { device := ⟨.blank setup.length setup.length_pos, input, output⟩, limit := setup.limit }

/-- How many bytes of a script are asked for in one call. -/
def room : Nat := 8192

/-- Steps through the script as it comes in, portion by portion. A script that breaks off
is a fault once all bytes before the break are done. -/
def stepThrough (setup : Setup) (fuel : Nat) (script : Source) (engine : Engine) :
    Option (Outcome Engine) :=
  match _h : script.read room with
  | (.error cause, _) => some (.fault cause engine)
  | (.ok [], _) => some (.ok engine)
  | (.ok (byte :: bytes), script) =>
    match engine.steps fuel (setup.dialect.commandsOf (byte :: bytes)) with
    | some (.ok engine) => setup.stepThrough fuel script engine
    | ended => ended
termination_by script.rest.length
decreasing_by exact Source.length_rest_lt_of_read _h

/-- Runs a script from its start to its conclusion. -/
def run (setup : Setup) (fuel : Nat) (script input : Source) (output : Sink) :
    Option (Outcome Engine) :=
  match setup.stepThrough fuel script (setup.start input output) with
  | some (.ok engine) => some engine.conclude
  | ended => ended

/-- Runs a script on streams that never fail. -/
def runPlain (setup : Setup) (fuel : Nat) (script input : List UInt8) :
    Option (Except Fault (Array UInt8 × Tally)) :=
  (setup.run fuel (.ofBytes script) (.ofBytes input) {}).map fun
    | .ok engine => .ok (engine.device.sink.accepted, engine.tally)
    | .fault cause _ => .error cause

/-- Runs every script on a tape of its own; each reads the whole input. -/
def runEach (setup : Setup) (fuel : Nat) (scripts : List (List UInt8)) (input : List UInt8) :
    Option (List (Except Fault (Array UInt8 × Tally))) :=
  scripts.mapM fun script => setup.runPlain fuel script input

/-- Runs a script, drops its output and shows what was recorded. -/
def rows (setup : Setup) (fuel : Nat) (script : Source) (input : List UInt8) :
    Option (Except Fault (List Listing.Row)) :=
  (setup.run fuel script (.ofBytes input) {}).map fun
    | .ok engine => .ok engine.skeleton.rows
    | .fault cause _ => .error cause

end Setup

end TapeScript
