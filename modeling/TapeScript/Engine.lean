import TapeScript.Skeleton.Basic
import TapeScript.Dialect
import TapeScript.Tally

/-! One script execution in progress. Commands come in one at a time; each is recorded,
and then everything is executed that can be executed without the next one. -/

namespace TapeScript

structure Engine where
  device : Device
  skeleton : Skeleton := {}
  limit : Option Nat := none
  executed : Nat := 0

namespace Engine

/-- What comes of one turn: nothing was due, the due command was not executed to its end,
or it was. -/
inductive Turn where
  | idle (engine : Engine)
  | stopped (cause : Fault) (engine : Engine)
  | ran (engine : Engine)

/-- The limit, if it does not allow another action. -/
def exhausted? (limit : Option Nat) (executed : Nat) : Option Nat :=
  limit.filter (· ≤ executed)

/-- Takes the command that is due and executes it. Opening a loop leaves it at once if the
current cell is zero, and closing one goes back to its start. -/
def turn : Engine → Turn
  | ⟨device, skeleton, limit, executed⟩ =>
    match skeleton.take with
    | (none, skeleton) => .idle ⟨device, skeleton, limit, executed⟩
    | (some command, skeleton) =>
      match exhausted? limit executed with
      | some k => .stopped (.limitReached k) ⟨device, skeleton, limit, executed⟩
      | none =>
        match command.kind with
        | .simple action =>
          match action.run device with
          | .ok device => .ran ⟨device, skeleton, limit, executed + 1⟩
          | .fault cause device => .stopped cause ⟨device, skeleton, limit, executed + 1⟩
        | .loopOpen =>
          let skeleton := if device.tape.current = 0 then skeleton.leaveLoop else skeleton
          .ran ⟨device, skeleton, limit, executed + 1⟩
        | .loopClose => .ran ⟨device, skeleton.repeatLoop, limit, executed + 1⟩

/-- Takes turns until nothing is due or a turn is stopped; none if the fuel does not
last. -/
def settle : Nat → Engine → Option (Outcome Engine)
  | 0, _ => none
  | fuel + 1, engine =>
    match engine.turn with
    | .idle engine => some (.ok engine)
    | .stopped cause engine => some (.fault cause engine)
    | .ran engine => settle fuel engine

/-- Records the command and its loop, and executes nothing yet. -/
def record (command : Command) : Engine → Outcome Engine
  | ⟨device, skeleton, limit, executed⟩ =>
    (skeleton.record command).map (⟨device, ·, limit, executed⟩)

/-- Records the command and, unless a loop body is being scanned, executes what is due. -/
def step (fuel : Nat) (command : Command) (engine : Engine) : Option (Outcome Engine) :=
  match engine.record command with
  | .fault cause engine => some (.fault cause engine)
  | .ok engine => if engine.skeleton.isScanning then some (.ok engine) else engine.settle fuel

/-- Steps through the commands up to the first fault. -/
def steps (fuel : Nat) : List Command → Engine → Option (Outcome Engine)
  | [], engine => some (.ok engine)
  | command :: commands, engine =>
    match engine.step fuel command with
    | some (.ok engine) => steps fuel commands engine
    | ended => ended

def tally (engine : Engine) : Tally :=
  { executed := engine.executed
    recorded := engine.skeleton.size
    loops := engine.skeleton.loops
    skipped := engine.skeleton.skipped }

/-- The end of the script: no loop may be open, and then the output is flushed. -/
def conclude : Engine → Outcome Engine
  | ⟨device, skeleton, limit, executed⟩ =>
    match skeleton.check with
    | .error cause => .fault cause ⟨device, skeleton, limit, executed⟩
    | .ok () => device.flush.map (⟨·, skeleton, limit, executed⟩)

end Engine

end TapeScript
