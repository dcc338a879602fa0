import TapeScript.Script.Basic

/-! What a script tree means, without nodes, links or pointers: a sequence goes in order,
and a loop repeats its body while the current cell is not zero. -/

namespace TapeScript.Script

/-- The device and the number of actions performed so far. -/
structure Progress where
  device : Device
  executed : Nat := 0

namespace Progress

/-- Counts one more action, unless the limit is reached. -/
def charge (limit : Option Nat) (p : Progress) : Outcome Progress :=
  match limit with
  | some k => if p.executed < k then .ok { p with executed := p.executed + 1 }
    else .fault (.limitReached k) p
  | none => .ok { p with executed := p.executed + 1 }

/-- Performs the action of a command that is no bracket; a bracket has no action. -/
def act (limit : Option Nat) (command : Command) (p : Progress) : Outcome Progress :=
  match p.charge limit with
  | .fault cause p => .fault cause p
  | .ok p =>
    match command.kind with
    | .simple action => (action.run p.device).map fun device => { p with device }
    | .loopOpen | .loopClose => .ok p

end Progress

/-- Evaluates the script from some progress on; none if the fuel does not last. Each
bracket of a loop is an action of its own. -/
def eval (limit : Option Nat) : Nat → Script → Progress → Option (Outcome Progress)
  | 0, _, _ => none
  | _ + 1, done, p => some (.ok p)
  | fuel + 1, act command rest, p =>
    match p.act limit command with
    | .fault cause p => some (.fault cause p)
    | .ok p => eval limit fuel rest p
  | fuel + 1, loop opening body closing rest, p =>
    match p.act limit opening with
    | .fault cause p => some (.fault cause p)
    | .ok p =>
      if p.device.tape.current = 0 then eval limit fuel rest p
      else
        match eval limit fuel body p with
        | some (.ok p) =>
          match p.act limit closing with
          | .fault cause p => some (.fault cause p)
          | .ok p => eval limit fuel (loop opening body closing rest) p
        | ended => ended

end TapeScript.Script
