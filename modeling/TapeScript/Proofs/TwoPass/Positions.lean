import TapeScript.Proofs.Builtin
import TapeScript.Proofs.TwoPass.Pairing

/-! # Positions of commands in a program

A command is known by the commands before it, whatever other bytes stand between them. -/

namespace TapeScript.TwoPass

variable {program : List UInt8} {i j bound : Nat} {c c' o : Command}
  {pre body post : List Command}

/-- The commands that stand before a position. -/
def commandsBefore (program : List UInt8) (i : Nat) : List Command :=
  Dialect.builtin.commandsOf (program.take i)

/-- The byte at this position stands for the command. -/
def CommandAt (program : List UInt8) (i : Nat) (c : Command) : Prop :=
  ∃ byte, program[i]? = some byte ∧ Dialect.builtin.find? byte = some c

theorem CommandAt.lt_length (h : CommandAt program i c) : i < program.length := by
  obtain ⟨byte, hbyte, -⟩ := h
  exact (List.getElem?_eq_some_iff.mp hbyte).1

theorem commandsBefore_mono (program : List UInt8) (h : i ≤ j) :
    commandsBefore program i <+: commandsBefore program j :=
  (List.take_prefix_take_left h).filterMap _

theorem commandsBefore_length (program : List UInt8) :
    commandsBefore program program.length = Dialect.builtin.commandsOf program := by
  rw [commandsBefore, List.take_length]

theorem commandsBefore_succ {byte : UInt8} (h : program[i]? = some byte) :
    commandsBefore program (i + 1) =
      commandsBefore program i ++ (Dialect.builtin.find? byte).toList := by
  rw [commandsBefore, List.take_add_one, h, Dialect.commandsOf, List.filterMap_append]
  congr 1

theorem CommandAt.commandsBefore_succ (h : CommandAt program i c) :
    commandsBefore program (i + 1) = commandsBefore program i ++ [c] := by
  obtain ⟨byte, hbyte, hfind⟩ := h
  rw [TwoPass.commandsBefore_succ hbyte, hfind, Option.toList_some]

theorem lt_of_commandsBefore
    (h : commandsBefore program j = commandsBefore program i ++ c :: post) : i < j := by
  apply Nat.lt_of_not_le
  intro hle
  have hlength := (commandsBefore_mono program hle).length_le
  rw [h, List.length_append, List.length_cons] at hlength
  omega

/-- Between two positions behind the same commands there are only comments. -/
theorem find?_eq_none {byte : UInt8} (hij : i < j) (hbyte : program[i]? = some byte)
    (hsame : commandsBefore program i = commandsBefore program j) :
    Dialect.builtin.find? byte = none := by
  have hlength := (commandsBefore_mono program hij).length_le
  rw [commandsBefore_succ hbyte, ← hsame, List.length_append] at hlength
  cases hfind : Dialect.builtin.find? byte with
  | none => rfl
  | some c =>
      rw [hfind, Option.toList_some, List.length_singleton] at hlength
      omega

/-- The command at a position comes next behind those before it. -/
theorem CommandAt.eq (h : CommandAt program i c)
    (hb : commandsBefore program bound = commandsBefore program i ++ c' :: post) : c = c' := by
  have hprefix := commandsBefore_mono program (lt_of_commandsBefore hb)
  rw [h.commandsBefore_succ, hb, List.prefix_append_right_inj, List.cons_prefix_cons] at hprefix
  exact hprefix.1

theorem exists_commandAt (h : commandsBefore program bound = pre ++ c :: post) :
    ∃ i, i < bound ∧ CommandAt program i c ∧ commandsBefore program i = pre := by
  rw [commandsBefore, Dialect.commandsOf, List.filterMap_eq_append_iff] at h
  obtain ⟨before, behind, hbound, hpre, hbehind⟩ := h
  obtain ⟨comment, byte, after, rfl, hcomment, hfind, -⟩ := List.filterMap_eq_cons_iff.mp hbehind
  have hlength := congrArg List.length hbound
  have htake := congrArg (List.take (before ++ comment).length) hbound
  rw [← List.append_assoc, List.take_left, List.take_take] at htake
  simp only [List.length_take, List.length_append, List.length_cons] at hlength
  have hlt : (before ++ comment).length < bound := by
    rw [List.length_append]
    omega
  refine ⟨(before ++ comment).length, hlt, ⟨byte, ?_, hfind⟩, ?_⟩
  · have hbyte := congrArg (·[(before ++ comment).length]?) hbound
    simp only [List.getElem?_take, if_pos hlt] at hbyte
    rw [hbyte, ← List.append_assoc, List.getElem?_append_right (Nat.le_refl _), Nat.sub_self]
    rfl
  · rw [Nat.min_eq_left (Nat.le_of_lt hlt)] at htake
    have hnone : comment.filterMap Dialect.builtin.find? = [] :=
      List.filterMap_eq_nil_iff.mpr hcomment
    rw [commandsBefore, htake, Dialect.commandsOf, List.filterMap_append, hpre, hnone,
      List.append_nil]

theorem exists_split {x : UInt8} (hx : program[i]? = some x) :
    ∃ before after, program = before ++ x :: after ∧ before.length = i := by
  obtain ⟨hi, rfl⟩ := List.getElem?_eq_some_iff.mp hx
  refine ⟨program.take i, program.drop (i + 1), ?_, List.length_take_of_le (Nat.le_of_lt hi)⟩
  rw [← List.drop_eq_getElem_cons hi, List.take_append_drop]

theorem exists_split_pair {x y : UInt8} (hx : program[i]? = some x) (hij : i < j)
    (hy : program[j]? = some y) :
    ∃ before inside after, program = before ++ x :: (inside ++ y :: after) ∧
      before.length = i ∧ i + 1 + inside.length = j := by
  obtain ⟨before, behind, rfl, rfl⟩ := exists_split hx
  obtain ⟨k, rfl⟩ : ∃ k, j = before.length + (k + 1) := ⟨j - before.length - 1, by omega⟩
  rw [List.getElem?_append_right (by omega), Nat.add_sub_cancel_left,
    List.getElem?_cons_succ] at hy
  obtain ⟨inside, after, rfl, rfl⟩ := exists_split hy
  exact ⟨before, inside, after, rfl, rfl, by omega⟩

/-- The brackets of a loop in the program are partners. -/
theorem partners {table : JumpTable} (h : jumpTable program = .ok table)
    (ho : o.kind = .loopOpen) (hc : c.kind = .loopClose)
    (hbody : Bracket.Balanced (Bracket.ofCommands body)) (hi : CommandAt program i o)
    (hj : CommandAt program j c)
    (hbefore : commandsBefore program j = commandsBefore program i ++ o :: body) :
    table[i]? = some (some j) ∧ table[j]? = some (some i) := by
  have hlt := lt_of_commandsBefore hbefore
  obtain ⟨x, hx, hfindx⟩ := hi
  obtain ⟨y, hy, hfindy⟩ := hj
  obtain ⟨before, inside, after, hsplit, rfl, rfl⟩ := exists_split_pair hx hlt hy
  have hxside : Bracket.ofByte? x = some .opening := by
    rw [Bracket.ofByte?_eq_bind, hfindx, Option.bind_some, Bracket.ofCommand?, ho]
  have hyside : Bracket.ofByte? y = some .closing := by
    rw [Bracket.ofByte?_eq_bind, hfindy, Option.bind_some, Bracket.ofCommand?, hc]
  have hinside : Dialect.builtin.commandsOf inside = body := by
    have hwhole : program = (before ++ x :: inside) ++ y :: after := by simp [hsplit]
    have hlength : before.length + 1 + inside.length = (before ++ x :: inside).length := by
      simp only [List.length_append, List.length_cons]
      omega
    rw [commandsBefore, hlength, commandsBefore, hwhole, List.take_left, List.append_assoc,
      List.take_left] at hbefore
    simpa [Dialect.commandsOf, hfindx] using hbefore
  rw [← hinside, Bracket.ofCommands_builtin] at hbody
  exact jumpTable_pair hxside hyside hbody (hsplit ▸ h)

end TapeScript.TwoPass
