import TapeScript.Outcome
import TapeScript.Stream.Interrupts

/-! Streams to read from. A source hands out its bytes in order, in portions of bounded
size, until it ends or breaks off. -/

namespace TapeScript

/-- A stream that breaks off once `left` more bytes were handed out. -/
structure Breakdown where
  left : Nat
  text : String
  deriving Repr, DecidableEq

structure Source where
  rest : List UInt8
  chunk : Option Nat := none
  breakdown : Option Breakdown := none
  interrupts : Interrupts := .never
  taken : Nat := 0
  calls : Nat := 0

namespace Source

def ofBytes (bytes : List UInt8) : Source := { rest := bytes }

/-- The most bytes that one call may hand out to a reader with this much room. -/
def portion (s : Source) (room : Nat) : Nat :=
  min (min room (s.chunk.getD room)) ((s.breakdown.map (·.left)).getD room)

/-- Hands out the next `n` bytes, or all of them. -/
def advance (s : Source) (n : Nat) : Source :=
  let count := (s.rest.take n).length
  { s with
    rest := s.rest.drop n
    breakdown := s.breakdown.map fun b => { b with left := b.left - count }
    taken := s.taken + count }

/-- What a call answers. No bytes are the end of the stream. -/
inductive Reply where
  | bytes (bytes : List UInt8)
  | interrupted
  | failed (text : String)
  deriving Repr, DecidableEq

/-- A call that gets through. -/
def serve (room : Nat) (s : Source) : Reply × Source :=
  match s.breakdown with
  | some ⟨0, text⟩ => (.failed text, s)
  | _ => (.bytes (s.rest.take (s.portion room)), s.advance (s.portion room))

/-- One call. It is counted also if it is interrupted, and then nothing is handed out. -/
def call (room : Nat) (s : Source) : Reply × Source :=
  let s := { s with calls := s.calls + 1 }
  if s.interrupts.hits s.calls then (.interrupted, s) else s.serve room

theorem call_of_hits {s : Source} (h : s.interrupts.hits (s.calls + 1)) (room : Nat) :
    s.call room = (.interrupted, { s with calls := s.calls + 1 }) := if_pos h

theorem call_of_not_hits {s : Source} (h : ¬s.interrupts.hits (s.calls + 1)) (room : Nat) :
    s.call room = serve room { s with calls := s.calls + 1 } := if_neg h

theorem serve_ne_interrupted (room : Nat) (s t : Source) :
    s.serve room ≠ (.interrupted, t) := by
  unfold serve
  split <;> nofun

theorem hits_of_call {s t : Source} {room : Nat} (h : s.call room = (.interrupted, t)) :
    s.interrupts.hits (s.calls + 1) ∧ t = { s with calls := s.calls + 1 } := by
  by_cases hhits : s.interrupts.hits (s.calls + 1)
  · rw [call_of_hits hhits] at h
    exact ⟨hhits, (Prod.mk.inj h).2.symm⟩
  · rw [call_of_not_hits hhits] at h
    exact absurd h (serve_ne_interrupted _ _ _)

/-- Calls again as long as it is interrupted. It may be unfolded, so that a run on given streams
can be evaluated. -/
@[semireducible]
def read (room : Nat) (s : Source) : Except Fault (List UInt8) × Source :=
  match _h : s.call room with
  | (.bytes bytes, s) => (.ok bytes, s)
  | (.failed text, s) => (.error (.stream text), s)
  | (.interrupted, s) => s.read room
termination_by s.interrupts.callsAfter s.calls - s.calls
decreasing_by
  obtain ⟨hhits, rfl⟩ := hits_of_call _h
  have hlt := Interrupts.callsAfter_of_hits hhits
  simp only [Interrupts.callsAfter_succ hhits]
  omega

/-- The next byte, or none at the end. -/
def readByte (s : Source) : Except Fault (Option UInt8) × Source :=
  match s.read 1 with
  | (.ok bytes, s) => (.ok bytes.head?, s)
  | (.error f, s) => (.error f, s)

/-- The bytes that the source will hand out before it ends or breaks off. -/
def content (s : Source) : List UInt8 :=
  s.rest.take ((s.breakdown.map (·.left)).getD s.rest.length)

/-- What is said behind the content, if the source breaks off no later than at the end of
its bytes. -/
def failure? (s : Source) : Option String :=
  (s.breakdown.filter (·.left ≤ s.rest.length)).map (·.text)

/-! ## What a read comes to -/

section Read

variable {s t : Source} {room : Nat} {bytes : List UInt8} {text : String}

theorem read_of_bytes (h : s.call room = (.bytes bytes, t)) : s.read room = (.ok bytes, t) := by
  rw [read]
  split <;> rename_i hcall <;> cases h.symm.trans hcall
  rfl

theorem read_of_failed (h : s.call room = (.failed text, t)) :
    s.read room = (.error (.stream text), t) := by
  rw [read]
  split <;> rename_i hcall <;> cases h.symm.trans hcall
  rfl

theorem read_of_interrupted (h : s.call room = (.interrupted, t)) :
    s.read room = t.read room := by
  rw [read]
  split <;> rename_i hcall <;> cases h.symm.trans hcall
  rfl

/-- A read is interrupted once at most. -/
theorem exists_read_eq (room : Nat) (s : Source) :
    ∃ t : Source, s.read room = t.read room ∧
      t.call room = serve room { s with calls := s.interrupts.callsAfter s.calls } := by
  by_cases hhits : s.interrupts.hits (s.calls + 1)
  · have hnext := s.interrupts.hits_callsAfter s.calls
    rw [Interrupts.callsAfter_of_hits hhits] at hnext ⊢
    refine ⟨_, read_of_interrupted (call_of_hits hhits room), ?_⟩
    exact call_of_not_hits (Bool.eq_false_iff.mp hnext) room
  · rw [Interrupts.callsAfter_of_not_hits hhits]
    exact ⟨s, rfl, call_of_not_hits hhits room⟩

/-- The source breaks off at once, or can hand out bytes before it does. -/
theorem breaks_or (s : Source) :
    (∃ text, s.breakdown = some ⟨0, text⟩) ∨ ∀ b ∈ s.breakdown, b.left ≠ 0 := by
  by_cases hbroken : ∃ text, s.breakdown = some ⟨0, text⟩
  · exact .inl hbroken
  · refine .inr ?_
    rintro ⟨_, text⟩ hb rfl
    exact hbroken ⟨text, hb⟩

theorem serve_of_broken (h : s.breakdown = some ⟨0, text⟩) (room : Nat) :
    s.serve room = (.failed text, s) := by
  simp only [serve, h]

theorem serve_of_left (h : ∀ b ∈ s.breakdown, b.left ≠ 0) (room : Nat) :
    s.serve room = (.bytes (s.rest.take (s.portion room)), s.advance (s.portion room)) := by
  obtain ⟨rest, chunk, _ | ⟨_ | left, text⟩, interrupts, taken, calls⟩ := s
  · rfl
  · exact absurd rfl (h _ rfl)
  · rfl

theorem read_of_broken (h : s.breakdown = some ⟨0, text⟩) (room : Nat) :
    s.read room =
      (.error (.stream text), { s with calls := s.interrupts.callsAfter s.calls }) := by
  obtain ⟨t, hread, hcall⟩ := s.exists_read_eq room
  rw [hread]
  refine read_of_failed (hcall.trans (serve_of_broken ?_ room))
  exact h

/-- An interruption neither ends the stream nor loses a byte of it. -/
theorem read_of_left (h : ∀ b ∈ s.breakdown, b.left ≠ 0) (room : Nat) :
    s.read room = (.ok (s.rest.take (s.portion room)),
      { s with calls := s.interrupts.callsAfter s.calls }.advance (s.portion room)) := by
  obtain ⟨t, hread, hcall⟩ := s.exists_read_eq room
  rw [hread]
  refine read_of_bytes (hcall.trans (serve_of_left ?_ room))
  exact h

theorem readByte_of_broken (h : s.breakdown = some ⟨0, text⟩) :
    s.readByte =
      (.error (.stream text), { s with calls := s.interrupts.callsAfter s.calls }) := by
  rw [readByte, read_of_broken h]

theorem readByte_of_left (h : ∀ b ∈ s.breakdown, b.left ≠ 0) :
    s.readByte = (.ok (s.rest.take (s.portion 1)).head?,
      { s with calls := s.interrupts.callsAfter s.calls }.advance (s.portion 1)) := by
  rw [readByte, read_of_left h]

end Read

@[simp] theorem rest_advance (s : Source) (n : Nat) : (s.advance n).rest = s.rest.drop n := rfl

theorem rest_read (room : Nat) (s : Source) {bytes : List UInt8} {t : Source}
    (h : s.read room = (.ok bytes, t)) : s.rest = bytes ++ t.rest := by
  rcases s.breaks_or with ⟨text, hb⟩ | hleft
  · rw [read_of_broken hb] at h
    cases h
  · rw [read_of_left hleft] at h
    cases h
    exact (List.take_append_drop _ _).symm

theorem length_rest_lt_of_read {room : Nat} {s t : Source} {byte : UInt8} {bytes : List UInt8}
    (h : s.read room = (.ok (byte :: bytes), t)) : t.rest.length < s.rest.length := by
  have hl := congrArg List.length (rest_read room s h)
  rw [List.length_append, List.length_cons] at hl
  omega

end Source

end TapeScript
