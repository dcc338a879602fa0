import TapeScript.Proofs.Skeleton.Chains
import TapeScript.Bracket
import Mathlib.Algebra.GroupWithZero.Nat
import Mathlib.Data.List.Induction

/-! # Where the commands of a script stand

What is recorded depends on the commands alone. The command behind a beginning `pre` of
the script stands on the node with the number `nodeCount pre`, or on the one behind it if
it opens a loop, and that loop has the number `nodeCount pre`. -/

namespace TapeScript.Skeleton

variable {pre body rest commands : List Command} {c o : Command}

/-- What is recorded of the commands, executed or not. -/
def recorded (commands : List Command) : Skeleton :=
  commands.foldl (fun s c => (s.record c).state) {}

/-- An opening command stands behind the node of its loop. -/
def lead (c : Command) : Nat :=
  match c.kind with
  | .loopOpen => 1
  | _ => 0

def nodeCount (commands : List Command) : Nat := (commands.map (lead · + 1)).sum

/-- The node on which the command behind `pre` stands. -/
def seat (pre : List Command) (c : Command) : Nat := nodeCount pre + lead c

/-- The node that is due when everything up to `pre` is done: the next command's, or its
loop's. -/
def entrance (pre rest : List Command) : Option Nat :=
  if rest = [] then none else some (nodeCount pre)

theorem recorded_append (commands rest : List Command) :
    recorded (commands ++ rest) =
      rest.foldl (fun s c => (s.record c).state) (recorded commands) := by
  simp [recorded]

theorem recorded_concat (commands : List Command) (c : Command) :
    recorded (commands ++ [c]) = ((recorded commands).record c).state := by
  rw [recorded_append, List.foldl_cons, List.foldl_nil]

@[simp] theorem nodeCount_nil : nodeCount [] = 0 := rfl

@[simp] theorem nodeCount_append (pre rest : List Command) :
    nodeCount (pre ++ rest) = nodeCount pre + nodeCount rest := by
  simp [nodeCount]

@[simp] theorem nodeCount_cons (c : Command) (rest : List Command) :
    nodeCount (c :: rest) = lead c + 1 + nodeCount rest := by
  simp [nodeCount]

theorem linked_recorded (commands : List Command) : (recorded commands).Linked := by
  induction commands using List.reverseRecOn with
  | nil => exact .empty
  | append_singleton commands c ih =>
      rw [recorded_concat]
      exact ih.record c

theorem size_record (s : Skeleton) (c : Command) :
    (s.record c).state.size = s.size + lead c + 1 := by
  simp only [record, lead]
  cases c.kind with
  | simple action => simp
  | loopOpen => simp
  | loopClose =>
      simp only [size, nodes_sealLoop]
      exact size_push c s

theorem size_recorded (commands : List Command) :
    (recorded commands).size = nodeCount commands := by
  induction commands using List.reverseRecOn with
  | nil => rfl
  | append_singleton commands c ih =>
      rw [recorded_concat, size_record, ih]
      simp [Nat.add_assoc]

theorem SameShape.record {s t : Skeleton} (h : s.SameShape t) (c : Command) :
    (s.record c).state.SameShape (t.record c).state := by
  simp only [Skeleton.record]
  cases c.kind with
  | simple action => exact h.push c
  | loopOpen => exact h.beginLoop.push c
  | loopClose =>
      have hp := h.push c
      refine ⟨?_, ?_, ?_⟩
      · rw [nodes_sealLoop, nodes_sealLoop, hp.nodes]
      · rw [openLoops_sealLoop, openLoops_sealLoop, hp.openLoops]
      · rw [tail_sealLoop, tail_sealLoop, hp.openLoops, hp.tail, hp.innermost]

/-! ## Cursors when a command is recorded -/

theorem scanned_sealLoop {s : Skeleton} (h : s.scanned ≠ s.innermost) :
    s.sealLoop.state.scanned = s.scanned := by
  obtain ⟨nodes, pending, last, openLoops, tail, scanned, skipped⟩ := s
  cases openLoops with
  | nil => rfl
  | cons l outer =>
      have hne : scanned ≠ some l := h
      simp only [sealLoop, if_neg hne]
      rfl

theorem pending_sealLoop {s : Skeleton} (h : s.scanned ≠ s.innermost) :
    s.sealLoop.state.pending = s.pending := by
  obtain ⟨nodes, pending, last, openLoops, tail, scanned, skipped⟩ := s
  cases openLoops with
  | nil => rfl
  | cons l outer =>
      have hne : scanned ≠ some l := h
      simp only [sealLoop, if_neg hne]
      rfl

theorem record_eq_ok {s : Skeleton} {c : Command}
    (h : c.kind = .loopClose → s.openLoops ≠ []) : s.record c = .ok (s.record c).state := by
  have hfault : (s.record c).fault? = none := by
    simp only [record]
    cases hk : c.kind with
    | simple action => rfl
    | loopOpen => rfl
    | loopClose => exact (fault?_sealLoop _).trans (if_neg (h hk))
  exact Outcome.ext_iff.mpr ⟨rfl, hfault⟩

/-- A command is due when it was recorded, unless it ends a scan. -/
theorem pending_record {s : Skeleton} {c : Command}
    (h : c.kind = .loopClose → s.scanned ≠ s.innermost) :
    (s.record c).state.pending = some (s.size + lead c) := by
  simp only [record, lead]
  cases hk : c.kind with
  | simple action => rfl
  | loopOpen => exact congrArg some (size_beginLoop s)
  | loopClose => exact pending_sealLoop (h hk)

theorem scanned_record {s : Skeleton} {c : Command}
    (h : c.kind = .loopClose → s.scanned ≠ s.innermost) :
    (s.record c).state.scanned = s.scanned := by
  simp only [record]
  cases hk : c.kind with
  | simple action => rfl
  | loopOpen => rfl
  | loopClose => exact scanned_sealLoop (h hk)

/-- Sealing the loop whose body is scanned ends the scan, and nothing is due. -/
theorem sealLoop_scanned {s : Skeleton} (h : s.scanned = s.innermost) (hs : s.scanned ≠ none) :
    s.sealLoop.state.scanned = none ∧ s.sealLoop.state.pending = none := by
  obtain ⟨nodes, pending, last, openLoops, tail, scanned, skipped⟩ := s
  cases openLoops with
  | nil => exact absurd h hs
  | cons l outer =>
      obtain rfl : scanned = some l := h
      simp only [sealLoop, if_true]
      exact ⟨rfl, rfl⟩

/-! ## What recording one more command leaves as it was -/

section Record

variable {s : Skeleton} {id : Nat}

theorem command?_record (c : Command) (hid : id < s.size) :
    (s.record c).state.command? id = s.command? id := by
  simp only [record]
  cases c.kind with
  | simple action => exact (command?_push c s id).trans (if_neg (Nat.ne_of_lt hid))
  | loopOpen => exact (Chained.command?_opened c id).trans (if_neg (by omega))
  | loopClose =>
      rw [command?_sealLoop]
      exact (command?_push c s id).trans (if_neg (Nat.ne_of_lt hid))

theorem parent?_record (c : Command) (hid : id < s.size) :
    (s.record c).state.parent? id = s.parent? id := by
  simp only [record]
  cases c.kind with
  | simple action => exact (parent?_push c s id).trans (if_neg (Nat.ne_of_lt hid))
  | loopOpen =>
      simp only [Outcome.state_ok]
      rw [Chained.parent?_opened, if_neg (by omega), parent?_beginLoop, if_neg (by omega)]
  | loopClose =>
      rw [parent?_sealLoop]
      exact (parent?_push c s id).trans (if_neg (Nat.ne_of_lt hid))

theorem isLoop_record (c : Command) (hid : id < s.size) :
    (s.record c).state.IsLoop id ↔ s.IsLoop id := by
  simp only [record]
  cases c.kind with
  | simple action => exact isLoop_push c s id
  | loopOpen =>
      simp only [Outcome.state_ok, Chained.isLoop_opened]
      exact or_iff_right (Nat.ne_of_lt hid)
  | loopClose =>
      rw [isLoop_sealLoop]
      exact isLoop_push c s id

/-- Only the tail gets a successor. -/
theorem next?_record (c : Command) (hid : id < s.size) :
    (s.record c).state.next? id = if s.tail = some id then some s.size else s.next? id := by
  have hiff : (s.tail = some id ∧ id < s.size) = (s.tail = some id) := by simp [hid]
  simp only [record]
  cases c.kind with
  | simple action =>
      simp only [Outcome.state_ok]
      simpa only [hiff] using next?_push c s id
  | loopOpen =>
      simp only [Outcome.state_ok, Chained.next?_opened]
      simpa only [hiff] using next?_beginLoop s id
  | loopClose =>
      rw [next?_sealLoop]
      simpa only [hiff] using next?_push c s id

end Record

/-- What recording one more command keeps is still true at the end of the script. -/
theorem recorded_induction {P : Skeleton → Prop}
    (hrecord : ∀ s c, s.Linked → P s → P (s.record c).state) (pre rest : List Command)
    (h : P (recorded pre)) : P (recorded (pre ++ rest)) := by
  induction rest using List.reverseRecOn with
  | nil => rwa [List.append_nil]
  | append_singleton rest c ih =>
      rw [← List.append_assoc, recorded_concat]
      exact hrecord _ _ (linked_recorded _) ih

theorem command?_recorded_append {id : Nat} (h : (recorded pre).command? id = some c)
    (rest : List Command) : (recorded (pre ++ rest)).command? id = some c := by
  refine recorded_induction (P := fun s => s.command? id = some c) (fun s c _ hs => ?_) pre rest h
  rwa [command?_record c (lt_size_of_command? hs)]

theorem parent?_recorded_append {id l : Nat} (h : (recorded pre).parent? id = some l)
    (rest : List Command) : (recorded (pre ++ rest)).parent? id = some l := by
  refine recorded_induction (P := fun s => s.parent? id = some l) (fun s c _ hs => ?_) pre rest h
  rwa [parent?_record c (lt_size_of_parent? hs)]

theorem isLoop_recorded_append {l : Nat} (h : (recorded pre).IsLoop l) (rest : List Command) :
    (recorded (pre ++ rest)).IsLoop l := by
  refine recorded_induction (P := fun s => s.IsLoop l) (fun s c _ hs => ?_) pre rest h
  rwa [isLoop_record c hs.lt_size]

theorem next?_recorded_append {a b : Nat} (h : (recorded pre).next? a = some b)
    (rest : List Command) : (recorded (pre ++ rest)).next? a = some b := by
  refine recorded_induction (P := fun s => s.next? a = some b) (fun s c hl hs => ?_) pre rest h
  rw [next?_record c (lt_size_of_next? hs), if_neg]
  · exact hs
  · intro ht
    rw [hl.tail_next ht] at hs
    cases hs

/-- The next command is put behind the tail, and stays there. -/
theorem next?_tail {t : Nat} (ht : (recorded pre).tail = some t) (rest : List Command) :
    (recorded (pre ++ rest)).next? t = entrance pre rest := by
  have hl := linked_recorded pre
  cases rest with
  | nil =>
      rw [List.append_nil, hl.tail_next ht]
      rfl
  | cons c rest =>
      rw [List.append_cons, entrance, if_neg (List.cons_ne_nil c rest)]
      apply next?_recorded_append
      rw [recorded_concat, next?_record c (hl.tail_lt ht), if_pos ht, size_recorded]

end TapeScript.Skeleton
