import TapeScript.CommandLine.Session
import TapeScript.Proofs.CommandLine.Outlet
import TapeScript.Proofs.Run.Framing

/-! # Several scripts in one command

A command with several scripts shows what the commands with one script each show, in order and up
to the first that fails. -/

namespace TapeScript

open Outcome

namespace CommandLine

variable {host : Host} {files : Files} {path script : String} {others paths : List String}
  {input : Option String} {tape : TapeOptions} {single : String → Exit} {sent bytes : List UInt8}

/-! ## Exits of several scripts -/

/-- The same exit, behind what was shown before. -/
def Exit.behind (sent : List UInt8) (exit : Exit) : Exit :=
  { exit with stdout := sent ++ exit.stdout }

/-- What a command shows of the run of its only script. -/
def Exit.ofRun (path : String) : Outcome Engine → Exit
  | .ok e => .success e.device.sink.accepted.toList
  | .fault cause e => .failure e.device.sink.accepted.toList (concerning path cause.message)

/-- The path leads to a file that can be read to its end. -/
def Readable (files : Files) (path : String) : Prop :=
  ∃ source, files path = .ok source ∧ source.chunk ≠ some 0 ∧ source.failure? = none

/-- What a readable file contains. -/
def contentOf (files : Files) (path : String) : List UInt8 :=
  match files path with
  | .ok source => source.content
  | .error _ => []

theorem Readable.readWhole (h : Readable files path) :
    readWhole files path = .ok (contentOf files path) := by
  obtain ⟨source, hfile, -, hfailure⟩ := h
  simp only [CommandLine.readWhole, contentOf, hfile, hfailure]

/-- It makes no difference to a run whether its script is read whole or as it comes. -/
theorem Readable.runSingle (h : Readable files path) (fuel : Nat) (setup : Setup)
    (input : List UInt8) :
    runSingle fuel files {} setup input path =
      (setup.run fuel (.ofBytes (contentOf files path)) (.ofBytes input) {}).map
        (Exit.ofRun path) := by
  obtain ⟨source, hfile, hchunk, hfailure⟩ := h
  obtain ⟨hdelivered, hbroken⟩ := Source.delivered_of_chunk hchunk
  obtain ⟨hdelivered', hbroken'⟩ := Source.delivered_ofBytes source.content
  have hrun : setup.run fuel source (.ofBytes input) {} =
      setup.run fuel (.ofBytes source.content) (.ofBytes input) {} := by
    rw [Setup.run_eq, Setup.run_eq, hdelivered, hbroken, hdelivered', hbroken', hfailure]
  simp only [CommandLine.runSingle, contentOf, hfile]
  exact congrArg (Option.map _) hrun

/-! ## Delivering -/

/-- The results of runs that went as the single commands show. -/
abbrev Agrees (single : String → Exit) (path : String)
    (result : Except Fault (Array UInt8 × Tally)) : Prop :=
  ∃ o, single path = .ofRun path o ∧ result = Setup.answer o

/-- The options and the input are the same for all scripts: either they are refused, or there is
a setup and an input with which the scripts run. -/
theorem respond_run_cases (host : Host) (files : Files) (input : Option String)
    (tape : TapeOptions) :
    (∃ text, ∀ fuel console script others,
      respond host fuel files console (.run script others input tape) = some (.failure [] text)) ∨
    ∃ setup bytes, tape.setup = .ok setup ∧
      (∀ fuel console path, respond host fuel files console (.run path [] input tape) =
        runSingle fuel files console setup bytes path) ∧
      ∀ fuel console script others, others ≠ [] →
        respond host fuel files console (.run script others input tape) =
          runSeveral fuel files console setup bytes (script :: others) := by
  cases hsetup : tape.setup with
  | error cause =>
      refine .inl ⟨cause.message, fun fuel console script others => ?_⟩
      simp only [respond, respondRun, hsetup]
  | ok setup =>
      cases hinput : (input.map (readWhole files)).getD (.ok []) with
      | error text =>
          refine .inl ⟨text, fun fuel console script others => ?_⟩
          simp only [respond, respondRun, hsetup, hinput]
      | ok bytes =>
          refine .inr ⟨setup, bytes, rfl, fun fuel console path => ?_,
            fun fuel console script others hothers => ?_⟩
          · simp only [respond, respondRun, hsetup, hinput]
          · cases others with
            | nil => exact absurd rfl hothers
            | cons other others => simp only [respond, respondRun, hsetup, hinput]

theorem steady_runPlain (setup : Setup) (script input : List UInt8) :
    Steady (setup.runPlain · script input) := by
  simp only [Setup.runPlain_eq_answer]
  exact (setup.steady_run _ _ _).map _

end CommandLine

end TapeScript
