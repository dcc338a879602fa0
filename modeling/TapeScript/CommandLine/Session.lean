import TapeScript.CommandLine.Arguments
import TapeScript.CommandLine.Console
import TapeScript.CommandLine.Exit
import TapeScript.Run
import TapeScript.Sample.Generator

/-! What the program does for a command line: exit status, standard output and standard
error, from the files that it finds. Like the runs that it starts, a session takes fuel and
is none if that does not last. -/

namespace TapeScript.CommandLine

/-- A path leads to a stream of bytes, or cannot be opened for a reason that is given. -/
abbrev Files := String → Except String Source

def concerning (path text : String) : String := path ++ ": " ++ text

def readWhole (files : Files) (path : String) : Except String (List UInt8) :=
  match files path with
  | .error text => .error (concerning path text)
  | .ok source =>
    match source.failure? with
    | some text => .error (concerning path text)
    | none => .ok source.content

def TapeOptions.setup (tape : TapeOptions) : Except Fault Setup :=
  Setup.ofLength .builtin tape.length tape.limit

/-- A single script is executed as it is read, and each byte of its output goes straight
to the console. -/
def runSingle (fuel : Nat) (files : Files) (console : Console) (setup : Setup)
    (input : List UInt8) (path : String) : Option Exit :=
  match files path with
  | .error text => some (.failure [] (concerning path text))
  | .ok script =>
    (setup.run fuel script (.ofBytes input) console.sink).map fun
      | .ok engine => .success engine.device.sink.accepted.toList
      | .fault cause engine =>
          .failure engine.device.sink.accepted.toList (concerning path cause.message)

/-- Writes the outputs in order, up to the first script that failed. -/
def deliver : List (String × Except Fault (Array UInt8 × Tally)) → Outlet → Exit
  | [], outlet =>
    match outlet.close with
    | .ok console => .success console.shown
    | .error text => .failure outlet.finallyShown text
  | (path, .error cause) :: _, outlet =>
      .failure outlet.finallyShown (concerning path cause.message)
  | (_, .ok (output, _)) :: results, outlet =>
    match outlet.write output.toList with
    | .ok outlet => deliver results outlet
    | .error text => .failure outlet.finallyShown text

/-- Several scripts are read first and then all run, before anything is written. -/
def runSeveral (fuel : Nat) (files : Files) (console : Console) (setup : Setup)
    (input : List UInt8) (paths : List String) : Option Exit :=
  match paths.mapM (readWhole files) with
  | .error text => some (.failure [] text)
  | .ok scripts =>
    (setup.runEach fuel scripts input).map fun results =>
      deliver (paths.zip results) (.ofConsole console)

def respondRun (fuel : Nat) (files : Files) (console : Console) (script : String)
    (others : List String) (input : Option String) (tape : TapeOptions) : Option Exit :=
  match tape.setup with
  | .error cause => some (.failure [] cause.message)
  | .ok setup =>
    match (input.map (readWhole files)).getD (.ok []) with
    | .error text => some (.failure [] text)
    | .ok input =>
      match others with
      | [] => runSingle fuel files console setup input script
      | _ => runSeveral fuel files console setup input (script :: others)

def respondOutline (host : Host) (fuel : Nat) (files : Files) (console : Console)
    (path : String) (tape : TapeOptions) : Option Exit :=
  match tape.setup with
  | .error cause => some (.failure [] cause.message)
  | .ok setup =>
    match files path with
    | .error text => some (.failure [] (concerning path text))
    | .ok script =>
      (setup.rows fuel script []).map fun
        | .error cause => .failure [] (concerning path cause.message)
        | .ok rows =>
          match console.write (Listing.text rows).toUTF8.toList with
          | .ok console => .success console.shown
          | .error text => .refusedListing host text

def benchReport (scripts : List (List UInt8)) (total : Tally) : String :=
  "Benchmark results:\n" ++
    s!"  Scripts:           {scripts.length}\n" ++
    s!"  Script bytes:      {scripts.flatten.length}\n" ++
    s!"  Actions executed:  {total.executed}\n" ++
    s!"  Nodes recorded:    {total.recorded}\n" ++
    s!"  Skipped on scan:   {total.skipped}\n"

/-- Runs scripts drawn at random; each reads all bytes once, in ascending order. -/
def respondBench (fuel : Nat) (seed : UInt64) (count depth width : Nat) : Option Exit := do
  let scripts ← Sample.scripts { depth, width } fuel count seed
  let results ← Setup.runEach {} fuel scripts ((List.range 256).map UInt8.ofNat)
  match results.mapM id with
  | .error cause => return .failure [] cause.message
  | .ok outputs =>
    return { status := 0, stderr := benchReport scripts (.sum (outputs.map (·.2))) }

/-- What is done if there is memory for it. -/
def respond (host : Host) (fuel : Nat) (files : Files) (console : Console) :
    Invocation → Option Exit
  | .run script others input tape => respondRun fuel files console script others input tape
  | .outline script tape => respondOutline host fuel files console script tape
  | .bench seed count depth width => respondBench fuel seed count depth width

/-! ## Memory -/

/-- The most bytes that can be addressed in one piece. -/
def addressable : Nat := Int64.maxValue.toNatClampNeg

/-- What is asked for at once: a tape takes a byte a cell, and a list of scripts takes three
words a script. What grows step by step is taken to find its memory. -/
def Invocation.fits : Invocation → Bool
  | .run _ _ _ tape | .outline _ tape => tape.length ≤ addressable
  | .bench _ count _ _ => 24 * count ≤ addressable

/-- What is done before any of that memory is asked for: files are read, but a single script is
only opened. -/
def prepare (files : Files) : Invocation → Except String Unit
  | .run script others input _ => do
    discard ((input.map (readWhole files)).getD (.ok []))
    match others with
    | [] => discard ((files script).mapError (concerning script))
    | _ => discard ((script :: others).mapM (readWhole files))
  | .outline script _ => discard ((files script).mapError (concerning script))
  | .bench .. => .ok ()

def execute (host : Host) (fuel : Nat) (files : Files) (console : Console)
    (invocation : Invocation) : Option Exit :=
  if invocation.fits then respond host fuel files console invocation
  else
    match prepare files invocation with
    | .error text => some (.failure [] text)
    | .ok () => some (.exhausted host)

def session (host : Host) (fuel : Nat) (files : Files) (console : Console)
    (words : List String) : Option Exit :=
  match Invocation.ofWords? words with
  | some invocation => execute host fuel files console invocation
  | none => some .misuse

end TapeScript.CommandLine
