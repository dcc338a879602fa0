import TapeScript.Action.Prim

/-! A command is a token bound to what it does. Two kinds of command shape the loops of
a script; all others only act on the device. -/

namespace TapeScript

inductive Command.Kind where
  | simple (action : Action)
  | loopOpen
  | loopClose

structure Command where
  token : UInt8
  kind : Command.Kind

namespace Command

def Kind.label : Kind → String
  | simple _ => "simple"
  | loopOpen => "loop-open"
  | loopClose => "loop-close"

def isLoopOpen (c : Command) : Bool :=
  match c.kind with
  | .loopOpen => true
  | _ => false

def isLoopClose (c : Command) : Bool :=
  match c.kind with
  | .loopClose => true
  | _ => false

/-- The form of every command beyond the built-in ones. -/
def extension (token : UInt8) (action : Action) : Command := ⟨token, .simple action⟩

def describe (c : Command) : String :=
  "Command \x7b token: " ++ Latin.quoted c.token ++ ", kind: \"" ++ c.kind.label ++ "\" \x7d"

def builtins : List Command :=
  [ ⟨'+'.toUInt8, .simple (Prim.add 1).action⟩,
    ⟨'-'.toUInt8, .simple (Prim.add 255).action⟩,
    ⟨'>'.toUInt8, .simple (Prim.shift 1).action⟩,
    ⟨'<'.toUInt8, .simple (Prim.shift (-1)).action⟩,
    ⟨'.'.toUInt8, .simple Prim.output.action⟩,
    ⟨','.toUInt8, .simple Prim.input.action⟩,
    ⟨'['.toUInt8, .loopOpen⟩,
    ⟨']'.toUInt8, .loopClose⟩ ]

end Command

end TapeScript
