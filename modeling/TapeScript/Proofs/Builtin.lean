import TapeScript.Dialect
import TapeScript.Proofs.Balance
import TapeScript.Proofs.Stream.Delivery
import TapeScript.TwoPass.Program

/-! # Built-in commands

What the eight built-in commands do to a device, and which bytes stand for them. -/

namespace TapeScript

/-! ## Primitive actions -/

namespace Tape

theorem shift_right (t : Tape) :
    t.shift 1 =
      if h : t.cursor + 1 < t.cells.size then .ok ⟨t.cells, t.cursor + 1, h⟩
      else .fault (.outside t.length t.length) t := by
  have hlt := t.cursor_lt
  have htarget : ¬(t.cursor : Int) + 1 < 0 := by omega
  have hnat : ((t.cursor : Int) + 1).toNat = t.cursor + 1 := by omega
  simp only [shift, if_neg htarget, hnat, moveTo]
  split
  · rfl
  · rename_i hge
    have heq : t.cursor + 1 = t.length := by
      simp only [length]
      omega
    rw [heq]
    rfl

theorem shift_left (t : Tape) :
    t.shift (-1) =
      if t.cursor = 0 then .fault (.outside (-1) t.length) t
      else .ok ⟨t.cells, t.cursor - 1, Nat.lt_of_le_of_lt (Nat.sub_le _ _) t.cursor_lt⟩ := by
  have hlt := t.cursor_lt
  by_cases hz : t.cursor = 0
  · simp only [shift, hz, if_true]
    rfl
  · have htarget : ¬(t.cursor : Int) + -1 < 0 := by omega
    have hnat : ((t.cursor : Int) + -1).toNat = t.cursor - 1 := by omega
    have hin : t.cursor - 1 < t.cells.size := by omega
    simp only [shift, if_neg htarget, hnat, moveTo, dif_pos hin, if_neg hz]

end Tape

namespace Prim

theorem run_add (amount : UInt8) (d : Device) :
    (add amount).action.run d =
      .ok { d with tape := d.tape.setCurrent (d.tape.current + amount) } :=
  rfl

theorem run_shift (distance : Int) (d : Device) :
    (shift distance).action.run d =
      (d.tape.shift distance).map fun tape => { d with tape } := by
  simp only [action, Action.demand, Action.run, Device.perform, Device.withTape]
  cases d.tape.shift distance <;> rfl

theorem run_output (d : Device) :
    output.action.run d = (d.sink.write d.tape.current).map fun sink => { d with sink } := by
  simp only [action, Action.demand, Action.run, Device.perform]
  cases d.sink.write d.tape.current <;> rfl

theorem run_input (d : Device) :
    input.action.run d =
      match d.source.readByte with
      | (.ok (some byte), source) => .ok { d with tape := d.tape.setCurrent byte, source }
      | (.ok none, source) => .ok { d with source }
      | (.error cause, source) => .fault cause { d with source } := by
  simp only [action, Action.demand, Action.run, Device.perform]
  rcases d.source.readByte with ⟨_ | _ | byte, source⟩ <;> rfl

end Prim

/-- A built-in command does one elementary action, unless it shapes a loop. -/
theorem Command.exists_prim_of_builtin {c : Command} {action : Action} (hc : c ∈ builtins)
    (hk : c.kind = .simple action) : ∃ p : Prim, action = p.action := by
  simp only [builtins, List.mem_cons, List.not_mem_nil, or_false] at hc
  rcases hc with rfl | rfl | rfl | rfl | rfl | rfl | rfl | rfl
  iterate 6
    · exact ⟨_, (Kind.simple.inj hk).symm⟩
  · cases hk
  · cases hk

/-! ## Faults of tapes and streams -/

theorem Tape.fault_shift {t : Tape} {distance : Int} {cause : Fault}
    (h : (t.shift distance).fault? = some cause) :
    ∃ position length, cause = .outOfRange position length := by
  obtain ⟨cells, cursor, hlt⟩ := t
  simp only [shift, moveTo] at h
  split at h
  · exact ⟨_, _, (Option.some.inj h).symm⟩
  · split at h
    · cases h
    · exact ⟨_, _, (Option.some.inj h).symm⟩

theorem Refusal.exists_fault_eq (r : Refusal) : ∃ text, r.fault = .stream text := by
  cases r with
  | error text => exact ⟨text, rfl⟩
  | acceptNothing => exact ⟨_, rfl⟩

theorem Sink.write_eq (s : Sink) (byte : UInt8) :
    s.write byte =
      if s.isFull then .fault s.refusal.fault s.count else .ok (s.count.accept byte) :=
  rfl

theorem Sink.fault_write {s : Sink} {byte : UInt8} {cause : Fault}
    (h : (s.write byte).fault? = some cause) : cause = s.refusal.fault := by
  rw [write_eq] at h
  split at h
  · exact (Option.some.inj h).symm
  · cases h

theorem Source.error_readByte {s t : Source} {cause : Fault}
    (h : s.readByte = (.error cause, t)) : ∃ text, cause = .stream text := by
  rcases s.breaks_or with ⟨text, hb⟩ | hleft
  · rw [readByte_of_broken hb] at h
    cases h
    exact ⟨text, rfl⟩
  · rw [readByte_of_left hleft] at h
    cases h

/-! ## Data in order -/

theorem Source.advance_inOrder (s : Source) (n : Nat) :
    ∃ k, k ≤ s.rest.length ∧ (s.advance n).rest = s.rest.drop k ∧
      (s.advance n).taken = s.taken + k := by
  refine ⟨(s.rest.take n).length, ?_, ?_, rfl⟩
  · rw [List.length_take]
    exact Nat.min_le_right _ _
  · rw [rest_advance, List.length_take]
    rcases Nat.le_total n s.rest.length with hle | hge
    · rw [Nat.min_eq_left hle]
    · rw [Nat.min_eq_right hge, List.drop_length, List.drop_of_length_le hge]

/-- A read takes bytes off the front, and counts them. -/
theorem Source.readByte_inOrder (s : Source) :
    ∃ n, n ≤ s.rest.length ∧ s.readByte.2.rest = s.rest.drop n ∧
      s.readByte.2.taken = s.taken + n := by
  rcases s.breaks_or with ⟨text, hb⟩ | hleft
  · rw [readByte_of_broken hb]
    exact ⟨0, Nat.zero_le _, rfl, rfl⟩
  · rw [readByte_of_left hleft]
    exact advance_inOrder { s with calls := s.interrupts.callsAfter s.calls } _

/-- A write leaves what was accepted before. -/
theorem Sink.prefix_write (s : Sink) (byte : UInt8) :
    s.accepted.toList <+: (s.write byte).state.accepted.toList := by
  rw [write_eq]
  split
  · exact List.prefix_rfl
  · rw [Outcome.state_ok, Sink.accepted_accept, Sink.accepted_count, Array.toList_push]
    exact List.prefix_append _ _

/-- A flush is counted, and nothing else happens to the device. -/
theorem Device.flush_eq (d : Device) :
    d.flush =
      match d.sink.flushError with
      | some text =>
          .fault (.stream text) { d with sink := { d.sink with flushes := d.sink.flushes + 1 } }
      | none => .ok { d with sink := { d.sink with flushes := d.sink.flushes + 1 } } := by
  obtain ⟨tape, source, accepted, capacity, refusal, _ | text, interrupts, calls, flushes⟩ := d <;>
    rfl

theorem Device.state_flush (d : Device) :
    d.flush.state = { d with sink := { d.sink with flushes := d.sink.flushes + 1 } } := by
  rw [flush_eq]
  split <;> rfl

/-! ## Streams that never fail -/

/-- The source hands out all of its bytes, and the sink accepts any number of them. -/
structure Device.Infallible (d : Device) : Prop where
  breakdown : d.source.breakdown = none
  chunk : d.source.chunk ≠ some 0
  capacity : d.sink.capacity = none
  flushError : d.sink.flushError = none

theorem Device.Infallible.withTape {d : Device} (h : d.Infallible) (tape : Tape) :
    Device.Infallible { d with tape } :=
  ⟨h.breakdown, h.chunk, h.capacity, h.flushError⟩

/-- A read with some room makes progress while there are bytes. -/
theorem Source.read_of_infallible {s : Source} (hb : s.breakdown = none) (hc : s.chunk ≠ some 0)
    {room : Nat} (hroom : 0 < room) :
    ∃ n t, 0 < n ∧ n ≤ room ∧ s.read room = (.ok (s.rest.take n), t) ∧ t.rest = s.rest.drop n ∧
      t.breakdown = none ∧ t.chunk = s.chunk := by
  have hleft : ∀ b ∈ s.breakdown, b.left ≠ 0 := by
    rw [hb]
    exact nofun
  have hle : s.portion room ≤ room := Nat.le_trans (Nat.min_le_left _ _) (Nat.min_le_left _ _)
  refine ⟨s.portion room, _, portion_pos hleft hc hroom, hle, read_of_left hleft room, rfl, ?_,
    rfl⟩
  simp only [advance, hb, Option.map_none]

theorem Source.readByte_of_infallible {s : Source} (hb : s.breakdown = none)
    (hc : s.chunk ≠ some 0) :
    ∃ t, s.readByte = (.ok s.rest.head?, t) ∧ t.rest = s.rest.tail ∧ t.breakdown = none ∧
      t.chunk = s.chunk := by
  obtain ⟨n, t, hpos, hle, hread, hrest, hbreakdown, hchunk⟩ :=
    read_of_infallible hb hc Nat.one_pos
  obtain rfl : n = 1 := Nat.le_antisymm hle hpos
  refine ⟨t, ?_, hrest.trans List.drop_one, hbreakdown, hchunk⟩
  rw [readByte, hread]
  dsimp only
  rw [List.head?_take, if_neg (Nat.ne_of_gt hpos)]

theorem Sink.write_of_infallible {s : Sink} (hc : s.capacity = none) (byte : UInt8) :
    ∃ t, s.write byte = .ok t ∧ t.accepted = s.accepted.push byte ∧ t.capacity = none ∧
      t.flushError = s.flushError := by
  obtain ⟨accepted, capacity, refusal, flushError, interrupts, calls, flushes⟩ := s
  obtain rfl : capacity = none := hc
  exact ⟨_, rfl, rfl, rfl, rfl⟩

/-! ## Bytes that stand for commands -/

theorem Dialect.commandsOf_append (d : Dialect) (xs ys : List UInt8) :
    d.commandsOf (xs ++ ys) = d.commandsOf xs ++ d.commandsOf ys :=
  List.filterMap_append

theorem Latin.toUInt8_char (byte : UInt8) : (Latin.char byte).toUInt8 = byte := by
  have hlt := byte.toNat_lt
  have hvalid : byte.toNat.isValidChar := .inl (by omega)
  have hnat : (Char.ofNat byte.toNat).toNat = byte.toNat := by
    rw [Char.ofNat, dif_pos hvalid]
    rfl
  apply UInt8.toNat_inj.mp
  rw [Latin.char, Char.toUInt8, UInt32.toNat_toUInt8]
  exact (congrArg (· % 2 ^ 8) hnat).trans (Nat.mod_eq_of_lt hlt)

namespace TwoPass

/-- The built-in command that an instruction stands for. -/
def Instruction.command? : Instruction → Option Command
  | increment => some ⟨'+'.toUInt8, .simple (Prim.add 1).action⟩
  | decrement => some ⟨'-'.toUInt8, .simple (Prim.add 255).action⟩
  | right => some ⟨'>'.toUInt8, .simple (Prim.shift 1).action⟩
  | left => some ⟨'<'.toUInt8, .simple (Prim.shift (-1)).action⟩
  | output => some ⟨'.'.toUInt8, .simple Prim.output.action⟩
  | input => some ⟨','.toUInt8, .simple Prim.input.action⟩
  | bracket .opening => some ⟨'['.toUInt8, .loopOpen⟩
  | bracket .closing => some ⟨']'.toUInt8, .loopClose⟩
  | nothing => none

/-- A bracket's instruction is no other's. -/
theorem Instruction.eq_bracket {i : Instruction} {c : Command} {side : Bracket}
    (h : i.command? = some c) (hc : Bracket.ofCommand? c = some side) : i = .bracket side := by
  cases i with
  | nothing => cases h
  | bracket side' =>
      cases side' <;>
        (obtain rfl := Option.some.inj h; obtain rfl := Option.some.inj hc; rfl)
  | increment | decrement | right | left | output | input =>
      obtain rfl := Option.some.inj h
      cases hc

end TwoPass

theorem Dialect.find?_builtin (byte : UInt8) :
    builtin.find? byte = (TwoPass.Instruction.ofByte byte).command? := by
  by_cases hmem : byte ∈ builtin.commands.map (·.token)
  · simp only [builtin, Command.builtins, List.map_cons, List.map_nil, List.mem_cons,
      List.not_mem_nil, or_false] at hmem
    rcases hmem with rfl | rfl | rfl | rfl | rfl | rfl | rfl | rfl <;> rfl
  · rw [find?_eq_none_iff.mpr hmem]
    unfold TwoPass.Instruction.ofByte
    split <;> rename_i h
    iterate 8
      · rw [← Latin.toUInt8_char byte, h] at hmem
        exact absurd (by decide) hmem
    · rfl

/-- A byte is a bracket when its command is one. -/
theorem Bracket.ofByte?_eq_bind (byte : UInt8) :
    ofByte? byte = (Dialect.builtin.find? byte).bind ofCommand? := by
  by_cases hmem : byte ∈ Dialect.builtin.commands.map (·.token)
  · simp only [Dialect.builtin, Command.builtins, List.map_cons, List.map_nil, List.mem_cons,
      List.not_mem_nil, or_false] at hmem
    rcases hmem with rfl | rfl | rfl | rfl | rfl | rfl | rfl | rfl <;> rfl
  · rw [Dialect.find?_eq_none_iff.mpr hmem]
    have hopening : byte ≠ '['.toUInt8 := fun h => hmem (h ▸ by decide)
    have hclosing : byte ≠ ']'.toUInt8 := fun h => hmem (h ▸ by decide)
    simp only [ofByte?, if_neg hopening, if_neg hclosing, Option.bind_none]

/-- The brackets of a script over the built-in commands are those of its bytes. -/
theorem Bracket.ofCommands_builtin (script : List UInt8) :
    ofCommands (Dialect.builtin.commandsOf script) = ofBytes script := by
  simp only [ofCommands, Dialect.commandsOf, ofBytes, List.filterMap_filterMap]
  congr 1
  funext byte
  exact (ofByte?_eq_bind byte).symm

end TapeScript
