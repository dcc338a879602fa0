import TapeScript.Outcome
import TapeScript.Stream.Interrupts

/-! Streams to write to, one byte a call. A sink accepts bytes until it is full. -/

namespace TapeScript

/-- What a full sink does with a byte. -/
inductive Refusal where
  | error (text : String)
  | acceptNothing
  deriving Repr, DecidableEq

/-- A call that accepts nothing leaves the byte unwritten, which is a failure too. -/
def Refusal.fault : Refusal → Fault
  | error text => .stream text
  | acceptNothing => .stream "failed to write whole buffer"

structure Sink where
  accepted : Array UInt8 := #[]
  capacity : Option Nat := none
  refusal : Refusal := .acceptNothing
  flushError : Option String := none
  interrupts : Interrupts := .never
  calls : Nat := 0
  flushes : Nat := 0

namespace Sink

def isFull (s : Sink) : Bool :=
  match s.capacity with
  | some n => n ≤ s.accepted.size
  | none => false

/-- Counts one call that gets through, with the interrupted one before it. -/
def count : Sink → Sink
  | ⟨accepted, capacity, refusal, flushError, interrupts, calls, flushes⟩ =>
    ⟨accepted, capacity, refusal, flushError, interrupts, interrupts.callsAfter calls, flushes⟩

def accept (byte : UInt8) : Sink → Sink
  | ⟨accepted, capacity, refusal, flushError, interrupts, calls, flushes⟩ =>
    ⟨accepted.push byte, capacity, refusal, flushError, interrupts, calls, flushes⟩

def write (byte : UInt8) (s : Sink) : Outcome Sink :=
  let s := s.count
  if s.isFull then .fault s.refusal.fault s else .ok (s.accept byte)

def flush (s : Sink) : Outcome Sink :=
  let s := { s with flushes := s.flushes + 1 }
  match s.flushError with
  | some text => .fault (.stream text) s
  | none => .ok s

@[simp] theorem accepted_count (s : Sink) : s.count.accepted = s.accepted := rfl

@[simp] theorem accepted_accept (byte : UInt8) (s : Sink) :
    (s.accept byte).accepted = s.accepted.push byte := rfl

end Sink

end TapeScript
