import TapeScript.Stream.Sink

/-! Standard output, and the buffers in front of it. A console shows every byte or refuses
all of them. What is written to a buffer may come to the console later, or never if the
buffer cannot be emptied. -/

namespace TapeScript.CommandLine

structure Console where
  refusal : Option String := none
  shown : List UInt8 := []

namespace Console

/-- To write nothing always succeeds. -/
def write (bytes : List UInt8) (c : Console) : Except String Console :=
  match c.refusal with
  | some text => if bytes.isEmpty then .ok c else .error text
  | none => .ok { c with shown := c.shown ++ bytes }

/-- The console as the output of a script, byte by byte and without a buffer. -/
def sink (c : Console) : Sink :=
  match c.refusal with
  | some text => { capacity := some 0, refusal := .error text }
  | none => {}

end Console

structure Buffered (σ : Type) where
  inner : σ
  held : List UInt8 := []

namespace Buffered

variable {σ : Type} (put : List UInt8 → σ → Except String σ)

def flush (b : Buffered σ) : Except String (Buffered σ) := do
  return ⟨← put b.held b.inner, []⟩

/-- Bytes that do not fit behind the held ones drive these out, and bytes that would fill
the buffer by themselves go past it. -/
def write (capacity : Nat) (bytes : List UInt8) (b : Buffered σ) :
    Except String (Buffered σ) := do
  let room := capacity - b.held.length
  let b ← if room < bytes.length then b.flush put else pure b
  if capacity ≤ bytes.length then return ⟨← put bytes b.inner, b.held⟩
  else return ⟨b.inner, b.held ++ bytes⟩

end Buffered

/-- A console that holds back the last, unfinished line. -/
abbrev LineBuffer := Buffered Console

namespace LineBuffer

def capacity : Nat := 1024

def isLineEnd (byte : UInt8) : Bool := byte == '\n'.toUInt8

/-- Complete lines go to the console, behind what was held. -/
def write (bytes : List UInt8) (b : LineBuffer) : Except String LineBuffer := do
  let unfinished := (bytes.reverse.takeWhile (!isLineEnd ·)).reverse
  let lines := bytes.take (bytes.length - unfinished.length)
  if lines.isEmpty then Buffered.write Console.write capacity bytes b
  else
    let b ← b.flush Console.write
    Buffered.write Console.write capacity unfinished ⟨← b.inner.write lines, b.held⟩

end LineBuffer

/-- The way that the output of several scripts takes to the console: a buffer for blocks in
front of the one for lines. -/
abbrev Outlet := Buffered LineBuffer

namespace Outlet

def capacity : Nat := 8192

def ofConsole (c : Console) : Outlet := ⟨⟨c, []⟩, []⟩

def write (bytes : List UInt8) (o : Outlet) : Except String Outlet :=
  Buffered.write LineBuffer.write capacity bytes o

/-- Brings everything to the console. -/
def close (o : Outlet) : Except String Console := do
  let o ← o.flush LineBuffer.write
  return (← o.inner.flush Console.write).inner

/-- What the console shows in the end, whether or not it takes all that is held. -/
def finallyShown (o : Outlet) : List UInt8 :=
  match o.close with
  | .ok c => c.shown
  | .error _ => o.inner.inner.shown

end Outlet

end TapeScript.CommandLine
