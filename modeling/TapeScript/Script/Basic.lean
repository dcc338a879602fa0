import TapeScript.Bracket

/-! Scripts as trees: a sequence of commands and loops, every loop with its own body. -/

namespace TapeScript

inductive Script where
  | done
  | act (command : Command) (rest : Script)
  | loop (opening : Command) (body : Script) (closing : Command) (rest : Script)

namespace Script

def toCommands : Script → List Command
  | done => []
  | act command rest => command :: rest.toCommands
  | loop opening body closing rest =>
      opening :: (body.toCommands ++ closing :: rest.toCommands)

/-- The tree of the commands up to the next unopened close, and then, for every such close,
the tree of what follows it. Read from the end, a close begins a body and an opening
command completes it. -/
def segments : List Command → Option (Script × List (Command × Script))
  | [] => some (done, [])
  | command :: commands =>
    match segments commands with
    | none => none
    | some (here, outer) =>
      match command.kind, outer with
      | .simple _, _ => some (act command here, outer)
      | .loopClose, _ => some (done, (command, here) :: outer)
      | .loopOpen, (closing, rest) :: outer => some (loop command here closing rest, outer)
      | .loopOpen, [] => none

/-- The tree of commands whose brackets are balanced. -/
def ofCommands? (commands : List Command) : Option Script :=
  match segments commands with
  | some (script, []) => some script
  | _ => none

end Script

end TapeScript
