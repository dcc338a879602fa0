import TapeScript.Proofs.Engine.Refinement
import TapeScript.Proofs.TwoPass.Beginning

/-! # The engine is online

An engine that was fed the beginning of a balanced script stands where a run over the whole
script stands when it first gets past this beginning. -/

namespace TapeScript

open Outcome Script

namespace TwoPass

/-- The loop over the instructions gets from one state to another, the first one whose pointer
is at the bound or behind it. -/
inductive Reaches (program : Array UInt8) (table : JumpTable) (bound : Nat) : State → State → Prop
  | here {s : State} (h : bound ≤ s.pointer) : Reaches program table bound s s
  | next {s s' s'' : State} {byte : UInt8} (h : s.pointer < bound)
      (hbyte : program[s.pointer]? = some byte) (hnext : s.next table (.ofByte byte) = .ok s')
      (hrest : Reaches program table bound s' s'') : Reaches program table bound s s''

theorem reaches_iff {program : Array UInt8} {table : JumpTable} {bound : Nat}
    (hbound : bound ≤ program.size) (s s' : State) :
    Reaches program table bound s s' ↔ Halts (State.runTo program table bound · s) (.ok s') := by
  constructor
  · intro h
    induction h with
    | here h => exact State.halts_of_le h
    | @next s s₁ s₂ byte hlt hbyte hnext _ ih =>
        exact ((State.continues_of_next hlt hbyte hnext).halts_iff
          (State.steady_runTo program table bound s) _).mpr ih
  · intro h
    obtain ⟨fuel, h⟩ := h
    induction fuel generalizing s with
    | zero => cases h
    | succ fuel ih =>
        dsimp only at h ih
        rw [State.runTo] at h
        by_cases hs : bound ≤ s.pointer
        · rw [if_pos hs] at h
          obtain rfl := Except.ok.inj (Option.some.inj h)
          exact .here hs
        · rw [if_neg hs] at h
          have hlt := Nat.lt_of_not_le hs
          have hbyte := Array.getElem?_eq_getElem (Nat.lt_of_lt_of_le hlt hbound)
          rw [hbyte] at h
          dsimp only at h
          cases hnext : s.next table (.ofByte program[s.pointer]) with
          | error failure => rw [hnext] at h; cases h
          | ok s₁ =>
              rw [hnext] at h
              exact .next hlt hbyte hnext (ih s₁ h)

/-- A run ends well if and only if it gets behind the last instruction. -/
theorem runWith_iff_reaches (program : Array UInt8) (table : JumpTable) (s s' : State) :
    (∃ fuel, State.runWith program table fuel s = some (.ok s')) ↔
      Reaches program table program.size s s' := by
  rw [reaches_iff (Nat.le_refl _)]
  simp only [Halts, State.runTo_size]

theorem mirrors_start (length : Nat) (hl : 0 < length) (input : Source) (output : Sink)
    (h : Device.Infallible ⟨.blank length hl, input, output⟩) :
    Mirrors length output.accepted ⟨.blank length hl, input, output⟩
      (.start length input.rest) where
  length := Tape.length_blank length hl
  cells := rfl
  head := rfl
  input := rfl
  output := by simp [State.start]
  infallible := h

theorem at_start {n : Nat} {written : Array UInt8} {program : List UInt8} {table : JumpTable}
    {bound : Nat} {p : Progress} {s : State} (hpointer : s.pointer = 0)
    (h : Mirrors n written p.device s) : At n written program table bound [] p s :=
  ⟨.here (by rw [hpointer]; rfl), h⟩

/-- Feeding the beginning `p` of a balanced script matches a run over the whole script up to
the first moment when it is behind `p`. -/
theorem matches_steps {length : Nat} {hl : 0 < length} {p q : List UInt8} {input : Source}
    {output : Sink} {table : JumpTable} (hjump : jumpTable (p ++ q) = .ok table)
    (h : Device.Infallible ⟨.blank length hl, input, output⟩) :
    Matches (fun o r => Answers length output.accepted r (o.map Engine.progress))
      (Engine.Steps (Dialect.builtin.commandsOf p) { device := ⟨.blank length hl, input, output⟩ })
      (Halts (State.runTo (p ++ q).toArray table p.length · (.start length input.rest))) := by
  have hbalanced := (exists_jumpTable_iff _).mp ⟨table, hjump⟩
  rw [← Bracket.ofCommands_builtin] at hbalanced
  obtain ⟨t, -, hcommands, ht⟩ := exists_ofCommands? hbalanced
  have hsplit : t.toCommands = Dialect.builtin.commandsOf p ++ Dialect.builtin.commandsOf q := by
    rw [hcommands, Dialect.commandsOf_append]
  have htake : t.toCommands.take (Dialect.builtin.commandsOf p).length =
      Dialect.builtin.commandsOf p := by
    rw [hsplit, List.take_left]
  have hk : (Dialect.builtin.commandsOf p).length ≤ t.length := by
    rw [Script.length, hsplit, List.length_append]
    exact Nat.le_add_right _ _
  have hengine := Engine.matches_evalsTo ⟨.blank length hl, input, output⟩ none ht hk
  have hat : At length output.accepted (p ++ q) table p.length []
      ⟨⟨.blank length hl, input, output⟩, 0⟩ (.start length input.rest) :=
    at_start rfl (mirrors_start length hl input output h)
  have hpointer := hat.matches_evalsTo hjump (by simp) ht
    (by rw [commandsBefore, List.take_left, htake, List.nil_append])
    (hcommands ▸ List.prefix_rfl) hk
  rw [htake] at hengine
  refine (hengine.trans hpointer.symm).mono fun o r hr => ?_
  obtain ⟨b, hb, hanswers⟩ := hr
  exact hb ▸ hanswers

end TwoPass

namespace Engine

open TwoPass

/-- Feeding the bytes `p` of a balanced script `p ++ q` ends without a fault if and only if the
run over the whole script gets to the end of `p`, and then the engine shows the cells, the
cursor, the output and the rest of the input of the first moment there. -/
theorem steps_iff_reaches (length : Nat) (hl : 0 < length) (p q : List UInt8) (input : Source)
    (output : Sink) (hbalanced : Bracket.Balanced (Bracket.ofBytes (p ++ q)))
    (h : Device.Infallible ⟨.blank length hl, input, output⟩) :
    let setup : Setup := { length, length_pos := hl }
    let fed (e : Engine) : Prop := ∃ fuel, (setup.start input output).steps fuel
      (setup.dialect.commandsOf p) = some (.ok e)
    ∃ table, jumpTable (p ++ q) = .ok table ∧
      ((∃ e, fed e) ↔
        ∃ s, Reaches (p ++ q).toArray table p.length (.start length input.rest) s) ∧
      ∀ e s, fed e → Reaches (p ++ q).toArray table p.length (.start length input.rest) s →
        e.device.tape.cells = s.cells ∧ e.device.tape.cursor = s.head ∧
          e.device.sink.accepted = output.accepted ++ s.output ∧
          e.device.source.rest = s.input := by
  intro setup fed
  obtain ⟨table, hjump⟩ := (exists_jumpTable_iff _).mpr hbalanced
  have hmatches := matches_steps hjump h
  have hbound : p.length ≤ (p ++ q).toArray.size := by simp
  have hreached {e : Engine} (he : fed e) :
      ∃ s, Halts (State.runTo (p ++ q).toArray table p.length ·
        (.start length input.rest)) (.ok s) ∧ Mirrors length output.accepted e.device s := by
    obtain ⟨r, hr, hanswers⟩ := hmatches.left _ he
    cases hanswers with
    | ok hmirrors => exact ⟨_, hr, hmirrors⟩
  refine ⟨table, hjump, ⟨?_, ?_⟩, ?_⟩
  · intro he
    obtain ⟨e, he⟩ := he
    obtain ⟨s, hs, -⟩ := hreached he
    exact ⟨s, (reaches_iff hbound _ s).mpr hs⟩
  · intro hs
    obtain ⟨s, hs⟩ := hs
    obtain ⟨o, ho, hanswers⟩ := hmatches.right _ ((reaches_iff hbound _ s).mp hs)
    cases o with
    | ok e => exact ⟨e, ho⟩
    | fault cause e => cases hanswers
  · intro e s he hs
    obtain ⟨s', hs', hmirrors⟩ := hreached he
    have heq := Halts.unique ((reaches_iff hbound _ s).mp hs)
      (State.steady_runTo _ table p.length _) hs'
    obtain rfl := Except.ok.inj heq
    exact ⟨hmirrors.cells.symm, hmirrors.head.symm, hmirrors.output, hmirrors.input.symm⟩

/-- A loop that is entered before its end is seen. -/
theorem steps_iff_reaches_open_loop :
    let p := ['+', '['].map Char.toUInt8
    let q := ['-', ']'].map Char.toUInt8
    let device : Device := ⟨.blank 1 Nat.one_pos, .ofBytes [], {}⟩
    0 < 1 ∧ Bracket.Balanced (Bracket.ofBytes (p ++ q)) ∧ device.Infallible ∧
      ∃ table, jumpTable (p ++ q) = .ok table ∧
        ((∃ e fuel, steps fuel (Dialect.builtin.commandsOf p) { device } = some (.ok e)) ↔
          ∃ s, Reaches (p ++ q).toArray table p.length (.start 1 []) s) := by
  intro p q device
  have hinfallible : device.Infallible := ⟨rfl, by simp [device, Source.ofBytes], rfl, rfl⟩
  obtain ⟨table, hjump, hiff, -⟩ :=
    steps_iff_reaches 1 Nat.one_pos p q (.ofBytes []) {} (by decide) hinfallible
  exact ⟨by decide, by decide, hinfallible, table, hjump, hiff⟩

end Engine

end TapeScript
