import TapeScript.Command

/-! A listing shows a script one row a node, indented by depth. It can be read off the
commands alone, in one pass from left to right. -/

namespace TapeScript

namespace Listing

inductive Label where
  | token (byte : UInt8)
  | loop
  deriving Repr, DecidableEq

def Label.text : Label → String
  | token byte => (Latin.char byte).toString
  | loop => "loop"

structure Row where
  depth : Nat
  id : Nat
  label : Label
  deriving Repr, DecidableEq

def padLeft (width : Nat) (text : String) : String :=
  String.ofList (List.replicate (width - text.length) ' ') ++ text

/-- Two blanks a level, the number at the right end of four places, two blanks, the label. -/
def Row.text (r : Row) : String :=
  String.ofList (List.replicate (2 * r.depth) ' ') ++ padLeft 4 (toString r.id) ++ "  " ++
    r.label.text ++ "\n"

def text (rows : List Row) : String := String.join (rows.map Row.text)

/-- Numbers the nodes from `id` on. A loop takes a row before the command that opens it,
which is the first of its body; the command that closes it is the last. -/
def scan (id depth : Nat) : List Command → List Row
  | [] => []
  | command :: commands =>
    match command.kind with
    | .simple _ => ⟨depth, id, .token command.token⟩ :: scan (id + 1) depth commands
    | .loopOpen =>
        ⟨depth, id, .loop⟩ :: ⟨depth + 1, id + 1, .token command.token⟩ ::
          scan (id + 2) (depth + 1) commands
    | .loopClose => ⟨depth, id, .token command.token⟩ :: scan (id + 1) (depth - 1) commands

def ofCommands (commands : List Command) : List Row := scan 0 0 commands

end Listing

end TapeScript
