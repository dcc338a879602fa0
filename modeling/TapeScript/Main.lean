import TapeScript.CommandLine.Session

/-! The program: reads the files that the command line names, and prints what the session
answers. -/

namespace TapeScript.CommandLine

/-- More turns than any run can take in practice. -/
def ample : Nat := 1 <<< 62

def describe : IO.Error → String
  | .noFileOrDirectory .. => "No such file or directory (os error 2)"
  | .permissionDenied .. => "Permission denied (os error 13)"
  | .inappropriateType _ 21 _ => "Is a directory (os error 21)"
  | e => toString e

/-- A directory can be opened, and breaks off at once. -/
def openFile (path : String) : IO (Except String Source) := do
  match ← (IO.FS.readBinFile path).toBaseIO with
  | .ok bytes => return .ok (.ofBytes bytes.toList)
  | .error (.inappropriateType name 21 details) =>
    let text := describe (.inappropriateType name 21 details)
    return .ok { rest := [], breakdown := some ⟨0, text⟩ }
  | .error e => return .error (describe e)

def openAll (paths : List String) : IO Files := do
  let opened ← paths.mapM fun path => return (path, ← openFile path)
  return fun path => (opened.lookup path).getD (.error "not asked for")

/-- The number of the thread is not to be had here, and reports list no calls. -/
def host : Host :=
  { thread := 1, traced := false, exhaustion := "capacity overflow\n" }

def answer (words : List String) : IO (Option Exit) := do
  match Invocation.ofWords? words with
  | some invocation => return execute host ample (← openAll invocation.paths) {} invocation
  | none => return some .misuse

end TapeScript.CommandLine

open TapeScript.CommandLine in
def main (words : List String) : IO UInt32 := do
  match ← answer words with
  | some exit =>
    let stdout ← IO.getStdout
    stdout.write ⟨exit.stdout.toArray⟩
    stdout.flush
    IO.eprint exit.stderr
    return UInt32.ofNat exit.status
  | none =>
    IO.eprintln "error: out of fuel"
    return 1
