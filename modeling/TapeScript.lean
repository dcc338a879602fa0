import TapeScript.Main
import TapeScript.Proofs.Dialect.Extensions
import TapeScript.Proofs.Skeleton.Operations
import TapeScript.Proofs.Engine.Stepping
import TapeScript.Proofs.Engine.Discipline
import TapeScript.Proofs.Engine.Refinement
import TapeScript.Proofs.Engine.Closing
import TapeScript.Proofs.Engine.Skipping
import TapeScript.Proofs.Engine.Locality
import TapeScript.Proofs.TwoPass.Online
import TapeScript.Proofs.TwoPass.Agreement
import TapeScript.Proofs.TwoPass.Targets
import TapeScript.Proofs.Run.Limit
import TapeScript.Proofs.Run.Outline
import TapeScript.Proofs.Run.Brackets
import TapeScript.Proofs.Run.Framing
import TapeScript.Proofs.Run.Breakdown
import TapeScript.Proofs.Run.Silence
import TapeScript.Proofs.Run.Unread
import TapeScript.Proofs.Run.Lengthening
import TapeScript.Proofs.Run.Tallying
import TapeScript.Proofs.Tape.Exactness
import TapeScript.Proofs.Sample.Iteration
import TapeScript.Proofs.Sample.Tries
import TapeScript.Proofs.CommandLine.Exits
import TapeScript.Proofs.CommandLine.Several
