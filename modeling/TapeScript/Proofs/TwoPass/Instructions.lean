import TapeScript.Proofs.Builtin
import TapeScript.TwoPass.Execution

/-! # Instructions and commands

An instruction does to a state what its command does to a device that the state mirrors. -/

namespace TapeScript.TwoPass

/-- The state shows the tape of the device, the input that is still to come, and the output
behind what was written before. -/
structure Mirrors (n : Nat) (written : Array UInt8) (d : Device) (s : State) : Prop where
  length : d.tape.length = n
  cells : s.cells = d.tape.cells
  head : s.head = d.tape.cursor
  input : s.input = d.source.rest
  output : d.sink.accepted = written ++ s.output
  infallible : d.Infallible

/-- Which fault the engine reports where the pointer leaves a tape of `n` cells. -/
inductive SameCause (n : Nat) : Failure → Fault → Prop
  | pastEnd (position : Nat) : SameCause n (.pastEnd position) (.outside n n)
  | belowZero (position : Nat) : SameCause n (.belowZero position) (.outside (-1) n)

/-- Both go on, the state at this position, or both fail for the same cause. -/
inductive Follows (n : Nat) (written : Array UInt8) (position : Nat) :
    Except Failure State → Outcome Device → Prop
  | ok {s : State} {d : Device} (hposition : s.pointer = position) (h : Mirrors n written d s) :
      Follows n written position (.ok s) (.ok d)
  | error {failure : Failure} {cause : Fault} {d : Device} (h : SameCause n failure cause) :
      Follows n written position (.error failure) (.fault cause d)

namespace Mirrors

variable {n : Nat} {written : Array UInt8} {d : Device} {s : State}

theorem current (h : Mirrors n written d s) : s.current = d.tape.current := by
  have hlt : s.head < s.cells.size := by
    rw [h.head, h.cells]
    exact d.tape.cursor_lt
  rw [State.current, Array.getD, dif_pos hlt, Tape.current]
  simp only [h.head, h.cells]
  rfl

theorem withPointer (h : Mirrors n written d s) (position : Nat) :
    Mirrors n written d { s with pointer := position } :=
  ⟨h.length, h.cells, h.head, h.input, h.output, h.infallible⟩

theorem setCurrent (h : Mirrors n written d s) (byte : UInt8) :
    Mirrors n written { d with tape := d.tape.setCurrent byte } (s.setCurrent byte) where
  length := (Tape.length_setCurrent byte d.tape).trans h.length
  cells := by
    simp only [State.setCurrent, Tape.setCurrent, h.cells, h.head, Array.setIfInBounds,
      dif_pos d.tape.cursor_lt]
  head := h.head
  input := h.input
  output := h.output
  infallible := h.infallible.withTape _

theorem follows_add (h : Mirrors n written d s) (amount : UInt8) :
    Follows n written (s.pointer + 1)
      (.ok ((s.setCurrent (s.current + amount)).continueBehind s.pointer))
      ((Prim.add amount).action.run d) := by
  rw [Prim.run_add, h.current]
  exact .ok rfl ((h.setCurrent _).withPointer _)

variable (table : JumpTable)

theorem follows_right (h : Mirrors n written d s) :
    Follows n written (s.pointer + 1) (s.next table .right) ((Prim.shift 1).action.run d) := by
  rw [Prim.run_shift, Tape.shift_right, State.next, h.cells, h.head]
  by_cases hin : d.tape.cursor + 1 < d.tape.cells.size
  · rw [dif_pos hin, if_neg (Nat.not_le.mpr hin)]
    exact .ok rfl ⟨h.length, rfl, rfl, h.input, h.output, h.infallible.withTape _⟩
  · rw [dif_neg hin, if_pos (Nat.not_lt.mp hin), h.length]
    exact .error (.pastEnd _)

theorem follows_left (h : Mirrors n written d s) :
    Follows n written (s.pointer + 1) (s.next table .left) ((Prim.shift (-1)).action.run d) := by
  rw [Prim.run_shift, Tape.shift_left, State.next, h.head]
  by_cases hz : d.tape.cursor = 0
  · rw [if_pos hz, if_pos hz, h.length]
    exact .error (.belowZero _)
  · rw [if_neg hz, if_neg hz]
    exact .ok rfl ⟨h.length, h.cells, rfl, h.input, h.output, h.infallible.withTape _⟩

theorem follows_output (h : Mirrors n written d s) :
    Follows n written (s.pointer + 1) (s.next table .output) (Prim.output.action.run d) := by
  obtain ⟨sink, hwrite, haccepted, hcapacity, hflush⟩ :=
    Sink.write_of_infallible h.infallible.capacity d.tape.current
  rw [Prim.run_output, hwrite, State.next]
  refine .ok rfl ⟨h.length, h.cells, h.head, h.input, ?_, ?_⟩
  · simp only [State.continueBehind, haccepted, h.output, h.current, Array.push_append]
  · exact ⟨h.infallible.breakdown, h.infallible.chunk, hcapacity, hflush ▸ h.infallible.flushError⟩

theorem follows_input (h : Mirrors n written d s) :
    Follows n written (s.pointer + 1) (s.next table .input) (Prim.input.action.run d) := by
  obtain ⟨source, hread, hrest, hbreakdown, hchunk⟩ :=
    Source.readByte_of_infallible h.infallible.breakdown h.infallible.chunk
  have hinfallible : Device.Infallible { d with source } :=
    ⟨hbreakdown, hchunk ▸ h.infallible.chunk, h.infallible.capacity, h.infallible.flushError⟩
  rw [Prim.run_input, hread, State.next]
  rw [← h.input] at hrest ⊢
  cases hinput : s.input with
  | nil =>
      rw [hinput] at hrest
      exact .ok rfl ⟨h.length, h.cells, h.head, hinput.trans hrest.symm, h.output, hinfallible⟩
  | cons byte input =>
      rw [hinput] at hrest
      have hmirror : Mirrors n written { d with source } { s with input } :=
        ⟨h.length, h.cells, h.head, hrest.symm, h.output, hinfallible⟩
      exact .ok rfl ((hmirror.setCurrent byte).withPointer _)

/-- An instruction that is no bracket does what its command does. -/
theorem follows_simple (h : Mirrors n written d s) {i : Instruction} {c : Command}
    {action : Action} (hi : i.command? = some c) (hk : c.kind = .simple action) :
    Follows n written (s.pointer + 1) (s.next table i) (action.run d) := by
  cases i with
  | bracket side => cases side <;> (obtain rfl := Option.some.inj hi; cases hk)
  | nothing => cases hi
  | increment =>
      obtain rfl := Option.some.inj hi
      obtain rfl := Command.Kind.simple.inj hk
      exact h.follows_add 1
  | decrement =>
      obtain rfl := Option.some.inj hi
      obtain rfl := Command.Kind.simple.inj hk
      have hsub : s.current - 1 = s.current + 255 := UInt8.sub_eq_add_neg _ _
      rw [State.next, hsub]
      exact h.follows_add 255
  | right =>
      obtain rfl := Option.some.inj hi
      obtain rfl := Command.Kind.simple.inj hk
      exact h.follows_right table
  | left =>
      obtain rfl := Option.some.inj hi
      obtain rfl := Command.Kind.simple.inj hk
      exact h.follows_left table
  | output =>
      obtain rfl := Option.some.inj hi
      obtain rfl := Command.Kind.simple.inj hk
      exact h.follows_output table
  | input =>
      obtain rfl := Option.some.inj hi
      obtain rfl := Command.Kind.simple.inj hk
      exact h.follows_input table

end Mirrors

end TapeScript.TwoPass
