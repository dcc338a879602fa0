import TapeScript.Proofs.Skeleton.Layout
import TapeScript.Proofs.Balance

/-! # Where commands lead to

The successors of the nodes on which commands stand, read off the commands: a command that
closes no loop leads to the next one, a closing one to nothing, and the loop itself to what
follows its closing command. -/

namespace TapeScript.Skeleton

variable {pre body rest : List Command} {c o : Command}

/-! ## Seats -/

theorem command?_seat_concat (pre : List Command) (c : Command) :
    (recorded (pre ++ [c])).command? (seat pre c) = some c := by
  rw [recorded_concat, seat, ← size_recorded pre]
  simp only [record, lead]
  cases c.kind with
  | simple action => exact (command?_push c _ _).trans (if_pos rfl)
  | loopOpen => exact (Chained.command?_opened c _).trans (if_pos rfl)
  | loopClose =>
      rw [command?_sealLoop]
      exact (command?_push c _ _).trans (if_pos rfl)

theorem command?_seat (pre : List Command) (c : Command) (rest : List Command) :
    (recorded (pre ++ c :: rest)).command? (seat pre c) = some c := by
  rw [List.append_cons]
  exact command?_recorded_append (command?_seat_concat pre c) rest

theorem isLoop_opening (ho : o.kind = .loopOpen) (pre rest : List Command) :
    (recorded (pre ++ o :: rest)).IsLoop (nodeCount pre) := by
  rw [List.append_cons]
  apply isLoop_recorded_append
  rw [recorded_concat, ← size_recorded pre]
  simp only [record, ho]
  exact (Chained.isLoop_opened o _).mpr (.inl rfl)

theorem seat_of_loopOpen (ho : o.kind = .loopOpen) (pre : List Command) :
    seat pre o = nodeCount pre + 1 := by
  simp only [seat, lead, ho]

theorem seat_of_ne_loopOpen (hc : c.kind ≠ .loopOpen) (pre : List Command) :
    seat pre c = nodeCount pre := by
  simp only [seat, lead, Nat.add_zero]

/-- The entrance leads to the seat of the next command. -/
theorem target?_nodeCount (pre : List Command) (c : Command) (rest : List Command) :
    (recorded (pre ++ c :: rest)).target? (nodeCount pre) = some (seat pre c) := by
  by_cases hc : c.kind = .loopOpen
  · have hloop := isLoop_opening hc pre rest
    rw [hloop.target?, ((linked_recorded _).opensAt hloop).first, seat_of_loopOpen hc]
  · have hcommand := command?_seat pre c rest
    rw [seat_of_ne_loopOpen hc] at hcommand ⊢
    exact target?_of_command? hcommand

theorem ownLoop?_opening (ho : o.kind = .loopOpen) (pre rest : List Command) :
    (recorded (pre ++ o :: rest)).ownLoop? (seat pre o) = some (nodeCount pre) := by
  have hloop := isLoop_opening ho pre rest
  rw [ownLoop?_of_command? (command?_seat pre o rest), seat_of_loopOpen ho]
  exact ((linked_recorded _).opensAt hloop).parent

/-! ## Successors -/

theorem tail_concat (hc : c.kind ≠ .loopClose) (pre : List Command) :
    (recorded (pre ++ [c])).tail = some (seat pre c) := by
  rw [recorded_concat, seat, ← size_recorded pre]
  simp only [record, lead]
  cases hk : c.kind with
  | simple action => rfl
  | loopOpen => simp
  | loopClose => exact absurd hk hc

theorem next?_seat (hc : c.kind ≠ .loopClose) (pre rest : List Command) :
    (recorded (pre ++ c :: rest)).next? (seat pre c) = entrance (pre ++ [c]) rest := by
  rw [List.append_cons]
  exact next?_tail (tail_concat hc pre) rest

/-- The seat of the next command, if there is one. -/
def nextSeat (pre : List Command) : List Command → Option Nat
  | [] => none
  | c :: _ => some (seat pre c)

theorem entrance_bind_target? (pre rest : List Command) :
    (entrance pre rest).bind (recorded (pre ++ rest)).target? = nextSeat pre rest := by
  cases rest with
  | nil => rfl
  | cons c rest => exact target?_nodeCount pre c rest

/-! ## Open loops -/

theorem openLoops_record (s : Skeleton) (c : Command) :
    (s.record c).state.openLoops =
      match c.kind with
      | .simple _ => s.openLoops
      | .loopOpen => s.size :: s.openLoops
      | .loopClose => s.openLoops.tail := by
  simp only [record]
  cases c.kind with
  | simple action => rfl
  | loopOpen => rfl
  | loopClose => rw [openLoops_sealLoop, openLoops_push]

/-- Loops that are open before commands are only closed when these go below their depth. -/
theorem openLoops_append (inner : List Nat) {outer : List Nat} {d : Nat}
    (hd : Bracket.depthFrom? inner.length (Bracket.ofCommands body) = some d)
    (ho : (recorded pre).openLoops = inner ++ outer) :
    ∃ inner', inner'.length = d ∧ (recorded (pre ++ body)).openLoops = inner' ++ outer := by
  induction body generalizing pre inner with
  | nil =>
      rw [List.append_nil]
      exact ⟨inner, Option.some.inj hd, ho⟩
  | cons c body ih =>
      rw [List.append_cons]
      have hrecord := openLoops_record (recorded pre) c
      rw [← recorded_concat, ho] at hrecord
      rw [Bracket.ofCommands_cons] at hd
      cases hk : c.kind with
      | simple action =>
          simp only [hk] at hd hrecord
          exact ih inner hd hrecord
      | loopOpen =>
          simp only [hk] at hd hrecord
          exact ih ((recorded pre).size :: inner) hd hrecord
      | loopClose =>
          simp only [hk] at hd hrecord
          cases inner with
          | nil => cases hd
          | cons l inner => exact ih inner hd hrecord

theorem openLoops_opening (ho : o.kind = .loopOpen) (pre : List Command) :
    (recorded (pre ++ [o])).openLoops = nodeCount pre :: (recorded pre).openLoops := by
  have hrecord := openLoops_record (recorded pre) o
  rw [← recorded_concat, size_recorded] at hrecord
  simpa only [ho] using hrecord

/-- Behind a balanced body the loop around it is the innermost open one. -/
theorem openLoops_body (ho : o.kind = .loopOpen)
    (hbody : Bracket.Balanced (Bracket.ofCommands body)) (pre : List Command) :
    (recorded (pre ++ o :: body)).openLoops = nodeCount pre :: (recorded pre).openLoops := by
  obtain ⟨inner, hlength, hopen⟩ :=
    openLoops_append [] hbody (openLoops_opening ho pre)
  rw [List.length_eq_zero_iff.mp hlength, List.nil_append] at hopen
  rw [List.append_cons, hopen]

/-- A loop that is still open leads nowhere. -/
theorem next?_opening (ho : o.kind = .loopOpen) (pre : List Command) :
    (recorded (pre ++ [o])).next? (nodeCount pre) = none := by
  apply (linked_recorded _).open_next
  rw [openLoops_opening ho]
  exact List.mem_cons_self

/-! ## A pair of commands around a balanced body -/

section Pair

variable (ho : o.kind = .loopOpen) (hc : c.kind = .loopClose)
  (hbody : Bracket.Balanced (Bracket.ofCommands body))
include ho hc hbody

theorem parent?_closing (pre rest : List Command) :
    (recorded (pre ++ o :: body ++ c :: rest)).parent? (seat (pre ++ o :: body) c) =
      some (nodeCount pre) := by
  rw [List.append_cons (pre ++ o :: body)]
  apply parent?_recorded_append
  rw [recorded_concat, seat_of_ne_loopOpen (by simp [hc]), ← size_recorded (pre ++ o :: body)]
  simp only [record, hc]
  rw [parent?_sealLoop, parent?_push, if_pos rfl, innermost, openLoops_body ho hbody]
  rfl

theorem chainStart_closing (pre rest : List Command) :
    (recorded (pre ++ o :: body ++ c :: rest)).chainStart (seat (pre ++ o :: body) c) =
      seat pre o := by
  have hp := parent?_closing ho hc hbody pre rest
  rw [(linked_recorded _).chainStart_eq (lt_size_of_parent? hp), hp, seat_of_loopOpen ho]
  rfl

/-- The loop leads to what follows its closing command. -/
theorem next?_loop (pre rest : List Command) :
    (recorded (pre ++ o :: body ++ c :: rest)).next? (nodeCount pre) =
      entrance (pre ++ o :: body ++ [c]) rest := by
  rw [List.append_cons (pre ++ o :: body)]
  apply next?_tail
  rw [recorded_concat]
  simp only [record, hc]
  rw [tail_sealLoop, openLoops_push, openLoops_body ho hbody, if_neg (List.cons_ne_nil _ _),
    innermost_push, innermost, openLoops_body ho hbody]
  rfl

end Pair

end TapeScript.Skeleton
