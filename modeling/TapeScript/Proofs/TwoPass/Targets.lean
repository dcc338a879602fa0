import TapeScript.Proofs.TwoPass.Matching
import TapeScript.Proofs.Engine.Acts
import TapeScript.Proofs.Run.Outline

/-! # Jump targets

The two passes match brackets by their positions, with a table. The skeleton matches them by
its links, and its nodes are numbered without the comments of a program but with its loops.
Wherever the table jumps, the links lead to the same command. -/

namespace TapeScript

theorem Skeleton.before_mono (s : Skeleton) {a b : Nat} (h : a ≤ b) :
    s.before a <+: s.before b := by
  have hrange : List.range a <+: List.range b := by
    rw [← Nat.min_eq_left h, ← List.take_range]
    exact List.take_prefix a (List.range b)
  exact hrange.filterMap _

namespace TwoPass

open Skeleton

variable {s : Skeleton} {program : List UInt8} {table : JumpTable} {c : Command}
  {rest : List Command} {i j k a b : Nat}

/-! ## Commands between positions -/

theorem CommandAt.length_lt (h : CommandAt program i c) (hij : i < j) :
    (commandsBefore program i).length < (commandsBefore program j).length := by
  have hlength := (commandsBefore_mono program hij).length_le
  rw [h.commandsBefore_succ, List.length_append, List.length_singleton] at hlength
  exact hlength

theorem CommandAt.exists_rest (h : CommandAt program i c) :
    ∃ rest, Dialect.builtin.commandsOf program = commandsBefore program i ++ c :: rest := by
  obtain ⟨rest, hrest⟩ := commandsBefore_mono program h.lt_length
  rw [h.commandsBefore_succ, commandsBefore_length] at hrest
  exact ⟨rest, by rw [← hrest, List.append_assoc, List.singleton_append]⟩

theorem commandsBefore_append (hij : i ≤ j) :
    commandsBefore program j =
      commandsBefore program i ++ Dialect.builtin.commandsOf ((program.take j).drop i) := by
  have htake : (program.take j).take i = program.take i := by
    rw [List.take_take, Nat.min_eq_left hij]
  rw [commandsBefore, commandsBefore, ← htake, ← Dialect.commandsOf_append, List.take_append_drop]

/-- Between the commands of a pair stands a balanced body. -/
theorem Encloses.exists_body (h : Encloses program i j) :
    ∃ o c body rest, o.kind = .loopOpen ∧ c.kind = .loopClose ∧ CommandAt program i o ∧
      CommandAt program j c ∧ Bracket.Balanced (Bracket.ofCommands body) ∧
      commandsBefore program j = commandsBefore program i ++ o :: body ∧
      Dialect.builtin.commandsOf program = commandsBefore program j ++ c :: rest := by
  have hopening : CommandAt program i ⟨'['.toUInt8, .loopOpen⟩ := ⟨_, h.opening, rfl⟩
  have hclosing : CommandAt program j ⟨']'.toUInt8, .loopClose⟩ := ⟨_, h.closing, rfl⟩
  obtain ⟨rest, hrest⟩ := hclosing.exists_rest
  refine ⟨_, _, Dialect.builtin.commandsOf ((program.take j).drop (i + 1)), rest, rfl, rfl,
    hopening, hclosing, ?_, ?_, hrest⟩
  · rw [Bracket.ofCommands_builtin]
    exact h.balanced
  · rw [commandsBefore_append h.lt, hopening.commandsBefore_succ, List.append_assoc,
      List.singleton_append]

/-! ## The node of a position -/

/-- The command at the position is recorded on the node, behind those before the position. -/
structure StandsAt (s : Skeleton) (program : List UInt8) (i id : Nat) : Prop where
  command : ∃ c, CommandAt program i c ∧ s.command? id = some c
  before : s.before id = commandsBefore program i

theorem StandsAt.unique (ha : StandsAt s program i a) (hb : StandsAt s program i b) : a = b := by
  have hle {a b : Nat} (ha : StandsAt s program i a) (hb : StandsAt s program i b) : b ≤ a := by
    apply Nat.le_of_not_lt
    intro hlt
    obtain ⟨c, -, hc⟩ := ha.command
    have hlength := (s.before_mono hlt).length_le
    rw [before_succ_of_command? hc, ha.before, hb.before, List.length_append,
      List.length_singleton] at hlength
    omega
  exact Nat.le_antisymm (hle hb ha) (hle ha hb)

/-- The first command behind a position. -/
structure FirstBehind (program : List UInt8) (k m : Nat) (c : Command) : Prop where
  lt : k < m
  command : CommandAt program m c
  first : ∀ i, k < i → i < m → ∀ d, ¬CommandAt program i d

/-- Where a link leads that goes on behind a position: to the first command behind it, or to
its loop if that command opens one. -/
inductive LeadsBehind (s : Skeleton) (program : List UInt8) (k : Nat) : Option Nat → Prop where
  | nowhere (h : ∀ m c, k < m → ¬CommandAt program m c) : LeadsBehind s program k none
  | command {m id : Nat} {c : Command} (h : FirstBehind program k m c) (hc : c.kind ≠ .loopOpen)
      (hid : StandsAt s program m id) : LeadsBehind s program k (some id)
  | loop {m id l : Nat} {c : Command} (h : FirstBehind program k m c) (hc : c.kind = .loopOpen)
      (hid : StandsAt s program m id) (hl : s.ownLoop? id = some l) :
      LeadsBehind s program k (some l)

section Recorded

variable (hs : s.SameShape (recorded (Dialect.builtin.commandsOf program)))
include hs

theorem standsAt_seat (h : CommandAt program i c) :
    StandsAt s program i (seat (commandsBefore program i) c) := by
  obtain ⟨rest, hrest⟩ := h.exists_rest
  refine ⟨⟨c, h, ?_⟩, ?_⟩
  · rw [hs.command?, hrest]
    exact command?_seat _ c rest
  · rw [hs.before, hrest]
    exact before_seat _ c rest

theorem existsUnique_standsAt (h : CommandAt program i c) : ∃! id, StandsAt s program i id :=
  ⟨_, standsAt_seat hs h, fun _ hid => hid.unique (standsAt_seat hs h)⟩

theorem leadsBehind_entrance
    (h : Dialect.builtin.commandsOf program = commandsBefore program (k + 1) ++ rest) :
    LeadsBehind s program k (entrance (commandsBefore program (k + 1)) rest) := by
  have hwhole := commandsBefore_length program
  have hle {i : Nat} (hki : k < i) := (commandsBefore_mono program (Nat.succ_le_of_lt hki)).length_le
  cases rest with
  | nil =>
      refine .nowhere fun m c hkm hm => ?_
      have hlt := hm.length_lt hm.lt_length
      rw [hwhole, h, List.append_nil] at hlt
      exact Nat.not_lt.mpr (hle hkm) hlt
  | cons c rest =>
      obtain ⟨m, -, hm, hbefore⟩ := exists_commandAt (hwhole.trans h)
      have hfirst : FirstBehind program k m c := by
        refine ⟨?_, hm, ?_⟩
        · apply Nat.lt_of_not_le
          intro hmk
          have hlt := hm.length_lt (Nat.lt_succ_of_le hmk)
          rw [hbefore] at hlt
          exact Nat.lt_irrefl _ hlt
        · intro i hki him d hi
          have hlt := hi.length_lt him
          rw [hbefore] at hlt
          exact Nat.not_lt.mpr (hle hki) hlt
      have hseat := standsAt_seat hs hm
      rw [entrance, if_neg (List.cons_ne_nil c rest), ← hbefore]
      rw [← hbefore] at h
      by_cases hc : c.kind = .loopOpen
      · refine .loop hfirst hc hseat ?_
        rw [hs.ownLoop?, h]
        exact ownLoop?_opening hc _ rest
      · rw [← seat_of_ne_loopOpen hc]
        exact .command hfirst hc hseat

end Recorded

/-! ## Pairs -/

/-- A pair of the table, as the skeleton has it: a loop that begins with the opening command
and ends with the closing one. -/
structure Joined (s : Skeleton) (program : List UInt8) (i j loop a b : Nat) : Prop where
  opening : StandsAt s program i a
  closing : StandsAt s program j b
  ownLoop_opening : s.ownLoop? a = some loop
  ownLoop_closing : s.ownLoop? b = some loop
  first : s.first? loop = some a
  last : s.EndsWithClose loop b
  chainStart : s.chainStart b = a
  behind_closing : LeadsBehind s program j (s.next? loop)
  behind_opening : LeadsBehind s program i (s.next? a)

theorem Encloses.exists_joined (h : Encloses program i j)
    (hs : s.SameShape (recorded (Dialect.builtin.commandsOf program))) :
    ∃ loop a b, Joined s program i j loop a b := by
  obtain ⟨o, c, body, rest, ho, hc, hi, hj, hbody, hbefore, hwhole⟩ := h.exists_body
  have hl := (linked_recorded _).of_sameShape hs
  have hsplit : Dialect.builtin.commandsOf program =
      commandsBefore program i ++ o :: body ++ c :: rest := by rw [hwhole, hbefore]
  have hsplit' : Dialect.builtin.commandsOf program =
      commandsBefore program i ++ o :: (body ++ c :: rest) := by simp [hsplit]
  have hopening := standsAt_seat hs hi
  have hclosing := standsAt_seat hs hj
  rw [hbefore] at hclosing
  have hcommand := command?_seat (commandsBefore program i ++ o :: body) c rest
  have hparent := parent?_closing ho hc hbody (commandsBefore program i) rest
  rw [← hsplit, ← hs.command?] at hcommand
  rw [← hsplit, ← hs.parent?] at hparent
  refine ⟨nodeCount (commandsBefore program i), _, _, hopening, hclosing, ?_, ?_, ?_, ?_, ?_, ?_, ?_⟩
  · rw [hs.ownLoop?, hsplit']
    exact ownLoop?_opening ho _ _
  · rw [ownLoop?_of_command? hcommand]
    exact hparent
  · rw [seat_of_loopOpen ho]
    exact (hl.opensAt (hl.parent_isLoop hparent)).first
  · exact hl.endsWithClose hcommand hc hparent
  · rw [hs.chainStart, hsplit]
    exact chainStart_closing ho hc hbody _ rest
  · rw [hs.next?, hsplit, next?_loop ho hc hbody, ← hbefore, ← hj.commandsBefore_succ]
    apply leadsBehind_entrance hs
    rw [hj.commandsBefore_succ, hwhole, List.append_assoc, List.singleton_append]
  · rw [hs.next?, hsplit', next?_seat (by simp [ho]), ← hi.commandsBefore_succ]
    apply leadsBehind_entrance hs
    rw [hi.commandsBefore_succ, hsplit', List.append_assoc, List.singleton_append]

/-- After stepping through a program that has a table, whatever came of the steps, every command
stands on a node of its own, and every pair of the table is a loop of the skeleton. -/
theorem targets_of_jumpTable {device : Device} {limit : Option Nat} {e : Engine}
    (ht : jumpTable program = .ok table)
    (h : Engine.Stepped { device, limit } (Dialect.builtin.commandsOf program) e) :
    (∀ i c, CommandAt program i c → ∃! id, StandsAt e.skeleton program i id) ∧
    ∀ i j, i < j → table[i]? = some (some j) →
      ∃ loop a b, Joined e.skeleton program i j loop a b :=
  ⟨fun _ _ hi => existsUnique_standsAt h.sameShape hi,
    fun _ _ hij hpair => (encloses_of_jumpTable ht hij hpair).exists_joined h.sameShape⟩

/-- A loop that is passed over, with a comment in it. -/
theorem targets_of_jumpTable_comment :
    ∃ e, Engine.Stepped { device := ⟨.blank 1 Nat.one_pos, .ofBytes [], {}⟩ }
        (Dialect.builtin.commandsOf ['['.toUInt8, 'x'.toUInt8, ']'.toUInt8]) e ∧
      ∃ loop a b, Joined e.skeleton ['['.toUInt8, 'x'.toUInt8, ']'.toUInt8] 0 2 loop a b := by
  have ht : jumpTable ['['.toUInt8, 'x'.toUInt8, ']'.toUInt8] = .ok #[some 2, none, some 0] := rfl
  have hfresh : Engine.Stepped { device := ⟨.blank 1 Nat.one_pos, .ofBytes [], {}⟩ } [] _ := .fresh
  have hopen := @Engine.Stepped.step _ _ _ 2 ⟨'['.toUInt8, .loopOpen⟩ _ hfresh rfl
  have hclose := @Engine.Stepped.step _ _ _ 2 ⟨']'.toUInt8, .loopClose⟩ _ hopen rfl
  exact ⟨_, hclose, (targets_of_jumpTable ht hclose).2 0 2 (by decide) rfl⟩

end TwoPass

end TapeScript
