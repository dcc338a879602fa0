import TapeScript.Listing

/-! How the program ends: with success, with a complaint, or by giving up on the spot. What it
gives up over is reported in full, with the calls that were under way. -/

namespace TapeScript.CommandLine

/-- What the program finds around it. Memory that cannot be addressed is asked for by as many
threads as there are scripts, so the report of that is the host's. -/
structure Host where
  /-- The number of the thread that the program starts on. -/
  thread : Nat
  /-- Whether reports list calls. -/
  traced : Bool
  exhaustion : String

/-- Where a thread gives up and why, and the calls that led there, the innermost first. -/
structure Panic where
  place : String
  reason : String
  calls : List String

namespace Panic

/-- A listing cannot be printed. -/
def refusedListing (text : String) : Panic where
  place := "/rustc/b940084d7eb6a299eb4bfeb8e34901bc051e7ac4/library/std/src/io/stdio.rs:1168:9"
  reason := "failed printing to stdout: " ++ text
  calls := ["__rustc::rust_begin_unwind", "core::panicking::panic_fmt", "std::io::stdio::_print",
    "onepass_cli::main"]

def backtrace (calls : List String) : String :=
  "stack backtrace:\n" ++
    String.join (calls.zipIdx.map fun (call, i) =>
      Listing.padLeft 4 (toString i) ++ ": " ++ call ++ "\n") ++
    "note: Some details are omitted, " ++
    "run with `RUST_BACKTRACE=full` for a verbose backtrace.\n"

/-- What stands in place of the calls where they are not listed. -/
def hint : String :=
  "note: run with `RUST_BACKTRACE=1` environment variable to display a backtrace\n"

def report (host : Host) (p : Panic) : String :=
  "\nthread 'main' (" ++ toString host.thread ++ ") panicked at " ++ p.place ++ ":\n" ++
    p.reason ++ "\n" ++ if host.traced then backtrace p.calls else hint

example : (refusedListing "full").report { thread := 7, traced := true, exhaustion := "" } =
    "\nthread 'main' (7) panicked at " ++ (refusedListing "full").place ++
      ":\nfailed printing to stdout: full\nstack backtrace:\n" ++
      "   0: __rustc::rust_begin_unwind\n   1: core::panicking::panic_fmt\n" ++
      "   2: std::io::stdio::_print\n   3: onepass_cli::main\nnote: Some details are omitted, " ++
      "run with `RUST_BACKTRACE=full` for a verbose backtrace.\n" := by decide +kernel

end Panic

structure Exit where
  status : Nat
  stdout : List UInt8 := []
  stderr : String := ""
  deriving Repr, DecidableEq

namespace Exit

def success (stdout : List UInt8) : Exit := { status := 0, stdout }

def failure (stdout : List UInt8) (text : String) : Exit :=
  { status := 1, stdout, stderr := "error: " ++ text ++ "\n" }

/-- The words were no proper command line. -/
def misuse : Exit :=
  { status := 2
    stderr := "usage: run SCRIPT... [--input FILE] [--tape-len N] [--step-limit N]\n" ++
      "       outline SCRIPT [--tape-len N] [--step-limit N]\n" ++
      "       bench --seed N [--count N] [--depth N] [--body-len N]\n" }

/-- The program gives up, and shows nothing but the report of it. -/
def abort (report : String) : Exit := { status := 101, stderr := report }

/-- A listing that is refused is not complained about. -/
def refusedListing (host : Host) (text : String) : Exit :=
  .abort ((Panic.refusedListing text).report host)

/-- Nor is memory that cannot be addressed. -/
def exhausted (host : Host) : Exit := .abort host.exhaustion

end Exit

end TapeScript.CommandLine
