import TapeScript.Tape
import TapeScript.Stream.Source
import TapeScript.Stream.Sink

/-! A tape together with the stream it reads from and the stream it writes to, and the
requests that a command may put to it. -/

namespace TapeScript

structure Device where
  tape : Tape
  source : Source
  sink : Sink

inductive Request where
  | current
  | cursor
  | length
  | read (i : Nat)
  | write (i : Nat) (byte : UInt8)
  | moveTo (i : Nat)
  | shift (distance : Int)
  | setCurrent (byte : UInt8)
  | receive
  | send (byte : UInt8)
  deriving Repr, DecidableEq

/-- What the device answers when it grants the request. -/
def Request.Answer : Request → Type
  | current | read _ => UInt8
  | cursor | length => Nat
  | receive => Option UInt8
  | write .. | moveTo _ | shift _ | setCurrent _ | send _ => Unit

namespace Device

def withTape : Outcome Tape → Source → Sink → Except Fault Unit × Device
  | .ok tape, source, sink => (.ok (), ⟨tape, source, sink⟩)
  | .fault f tape, source, sink => (.error f, ⟨tape, source, sink⟩)

def perform : (request : Request) → Device → Except Fault request.Answer × Device
  | .current, d => (.ok d.tape.current, d)
  | .cursor, d => (.ok d.tape.cursor, d)
  | .length, d => (.ok d.tape.length, d)
  | .read i, d => (d.tape.read i, d)
  | .write i byte, ⟨tape, source, sink⟩ => withTape (tape.write i byte) source sink
  | .moveTo i, ⟨tape, source, sink⟩ => withTape (tape.moveTo i) source sink
  | .shift distance, ⟨tape, source, sink⟩ => withTape (tape.shift distance) source sink
  | .setCurrent byte, ⟨tape, source, sink⟩ => (.ok (), ⟨tape.setCurrent byte, source, sink⟩)
  | .receive, ⟨tape, source, sink⟩ =>
    match source.readByte with
    | (answer, source) => (answer, ⟨tape, source, sink⟩)
  | .send byte, ⟨tape, source, sink⟩ =>
    match sink.write byte with
    | .ok sink => (.ok (), ⟨tape, source, sink⟩)
    | .fault f sink => (.error f, ⟨tape, source, sink⟩)

def flush : Device → Outcome Device
  | ⟨tape, source, sink⟩ => sink.flush.map (⟨tape, source, ·⟩)

end Device

end TapeScript
