/-! The words of a command line: what is asked for, and with which options. -/

namespace TapeScript.CommandLine

structure TapeOptions where
  length : Nat := 65536
  limit : Option Nat := none
  deriving Repr, DecidableEq

inductive Invocation where
  | run (script : String) (others : List String) (input : Option String) (tape : TapeOptions)
  | outline (script : String) (tape : TapeOptions)
  | bench (seed : UInt64) (count depth width : Nat)
  deriving Repr, DecidableEq

/-- A single hyphen is an operand like any other. -/
inductive Word where
  | terminator
  | option (name : String) (value : Option String)
  | shortOption
  | operand (text : String)
  deriving Repr, DecidableEq

/-- The name of an option ends at the first equals sign, and its value follows. -/
def Word.ofString (text : String) : Word :=
  match text.toList with
  | ['-', '-'] => .terminator
  | '-' :: '-' :: body =>
    let value :=
      match body.dropWhile (· != '=') with
      | _ :: value => some (String.ofList value)
      | [] => none
    .option (String.ofList (body.takeWhile (· != '='))) value
  | '-' :: _ :: _ => .shortOption
  | _ => .operand text

structure Arguments where
  options : List (String × String) := []
  operands : List String := []
  deriving Repr, DecidableEq

namespace Arguments

def addOption (name value : String) (a : Arguments) : Arguments :=
  { a with options := (name, value) :: a.options }

def addOperand (text : String) (a : Arguments) : Arguments :=
  { a with operands := text :: a.operands }

/-- Sorts words into options, of which each takes a value, and operands. A value that
stands as a word of its own may not look like an option. Behind the terminator every word
is an operand. -/
def gather? (names : List String) : List String → Option Arguments
  | [] => some {}
  | word :: words =>
    match Word.ofString word with
    | .terminator => some { operands := words }
    | .shortOption => none
    | .operand text => (gather? names words).map (addOperand text)
    | .option name value =>
      if names.contains name then
        match value, words with
        | some value, words => (gather? names words).map (addOption name value)
        | none, next :: words =>
          match Word.ofString next with
          | .operand value => (gather? names words).map (addOption name value)
          | _ => none
        | none, [] => none
      else none

/-- No option may be given twice. -/
def ofWords? (names : List String) (words : List String) : Option Arguments :=
  (gather? names words).filter fun a => (a.options.map (·.1)).Nodup

end Arguments

/-- A sign is allowed if it is a plus; the number must fit into 64 bits. -/
def number? (text : String) : Option Nat :=
  let digits :=
    match text.toList with
    | '+' :: digits => digits
    | digits => digits
  if digits.isEmpty || !digits.all Char.isDigit then none
  else (some (digits.foldl (fun n c => 10 * n + (c.toNat - '0'.toNat)) 0)).filter (· < UInt64.size)

def path? (text : String) : Option String := (some text).filter (!·.isEmpty)

namespace Arguments

/-- The value of an option, read as it has to be; none also where it was not given. -/
def optional {α : Type} (read : String → Option α) (name : String) (a : Arguments) :
    Option (Option α) :=
  match a.options.lookup name with
  | some text => (read text).map some
  | none => some none

def tape? (a : Arguments) : Option TapeOptions := do
  let length ← a.optional number? "tape-len"
  let limit ← a.optional number? "step-limit"
  return { length := length.getD 65536, limit }

end Arguments

namespace Invocation

def run? (words : List String) : Option Invocation := do
  let a ← Arguments.ofWords? ["input", "tape-len", "step-limit"] words
  let input ← a.optional path? "input"
  let tape ← a.tape?
  match ← a.operands.mapM path? with
  | script :: others => some (run script others input tape)
  | [] => none

def outline? (words : List String) : Option Invocation := do
  let a ← Arguments.ofWords? ["tape-len", "step-limit"] words
  let tape ← a.tape?
  match ← a.operands.mapM path? with
  | [script] => some (outline script tape)
  | _ => none

def bench? (words : List String) : Option Invocation := do
  let a ← Arguments.ofWords? ["seed", "count", "depth", "body-len"] words
  let seed ← (← a.optional number? "seed")
  let count ← a.optional number? "count"
  let depth ← a.optional number? "depth"
  let width ← a.optional number? "body-len"
  if a.operands.isEmpty then
    some (bench (UInt64.ofNat seed) (count.getD 4096) (depth.getD 3) (width.getD 8))
  else none

/-- None if the words are no proper command line. -/
def ofWords? : List String → Option Invocation
  | "run" :: words => run? words
  | "outline" :: words => outline? words
  | "bench" :: words => bench? words
  | _ => none

/-- The files that are needed. -/
def paths : Invocation → List String
  | run script others input _ => input.toList ++ script :: others
  | outline script _ => [script]
  | bench .. => []

end Invocation

end TapeScript.CommandLine
