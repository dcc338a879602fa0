import TapeScript.Proofs.Skeleton.Pairs
import TapeScript.Skeleton.Listing

/-! # The listing of what is recorded

Following the links of a skeleton shows its nodes in the order of their numbers, and so the
listing can be read off the commands in one pass. A chain is followed up to the command that
closes the loop around it, and there the chain of that loop goes on. -/

namespace TapeScript.Skeleton

open Listing

variable {s : Skeleton} {whole pre seg seg' rest : List Command} {c : Command}
  {depth id f : Nat}

/-! ## The rows of one node -/

/-- The rows from a node on, if there is one. -/
def rowsAt (s : Skeleton) (depth : Nat) : Option Nat → List Row
  | some id => s.rowsFrom depth id
  | none => []

/-- Links lead forward, so the rows behind a node are those from its successor on. -/
theorem rowsFrom_behind (h : s.Threaded) (hid : id < s.nodes.size) (depth : Nat) :
    (match s.nodes[id].next with
      | some next => if id < next then s.rowsFrom depth next else []
      | none => []) = s.rowsAt depth (s.next? id) := by
  have hnext : s.next? id = s.nodes[id].next := by
    rw [next?, Array.getElem?_eq_getElem hid, Option.bind_some]
  rw [hnext]
  cases hn : s.nodes[id].next with
  | none => rfl
  | some next => exact if_pos (h.next_lt (hnext.trans hn))

theorem entry?_eq_getElem (hid : id < s.nodes.size) : s.entry? id = some s.nodes[id].entry :=
  entry?_of_getElem? (Array.getElem?_eq_getElem hid)

/-- A command is shown by its token, and a loop as such. -/
def Entry.label : Entry → Label
  | .op command _ => .token command.token
  | .loop .. => .loop

/-- Only a loop has a first node. -/
def Entry.first? : Entry → Option Nat
  | .op .. => none
  | .loop first _ => first

theorem first?_of_entry {e : Entry} (he : s.entry? id = some e) : s.first? id = e.first? := by
  rw [first?, he]
  cases e <;> rfl

/-- A node is followed by the body of its loop, if it is one, and then by its successor. -/
theorem rowsFrom_of_entry {e : Entry} (h : s.Threaded) (he : s.entry? id = some e)
    (depth : Nat) :
    s.rowsFrom depth id = ⟨depth, id, e.label⟩ ::
      (s.rowsAt (depth + 1) e.first? ++ s.rowsAt depth (s.next? id)) := by
  have hid : id < s.nodes.size := lt_size_of_isSome entry?_eq_none he
  have hfirst := first?_of_entry he
  rw [entry?_eq_getElem hid, Option.some.injEq] at he
  rw [rowsFrom, dif_pos hid, ← rowsFrom_behind h hid, he]
  rcases e with ⟨c, loop⟩ | ⟨_ | first, parent⟩
  · rfl
  · rfl
  · dsimp only
    rw [if_pos (h.first_gt hfirst).1]
    rfl

theorem rowsFrom_of_command (h : s.Threaded) (hc : s.command? id = some c) (depth : Nat) :
    s.rowsFrom depth id = ⟨depth, id, .token c.token⟩ :: s.rowsAt depth (s.next? id) := by
  rw [command?] at hc
  split at hc
  · rename_i he
    obtain rfl := Option.some.inj hc
    exact rowsFrom_of_entry h he depth
  · cases hc

theorem rowsFrom_of_first (h : s.Threaded) (hf : s.first? id = some f) (depth : Nat) :
    s.rowsFrom depth id =
      ⟨depth, id, .loop⟩ :: (s.rowsFrom (depth + 1) f ++ s.rowsAt depth (s.next? id)) := by
  obtain ⟨first, parent, he⟩ := IsLoop.of_first? hf
  rw [first?_of_entry he] at hf
  rw [rowsFrom_of_entry h he, hf]
  rfl

theorem rowsFrom_seat (hw : whole = pre ++ c :: rest) (depth : Nat) :
    (recorded whole).rowsFrom depth (seat pre c) =
      ⟨depth, seat pre c, .token c.token⟩ ::
        (recorded whole).rowsAt depth ((recorded whole).next? (seat pre c)) := by
  subst hw
  exact rowsFrom_of_command (linked_recorded _).toThreaded (command?_seat pre c rest) depth

/-! ## Where a chain stops -/

/-- The chain that goes on behind `pre` stops behind `seg`: there the loop around it is closed
and leads on, or the script ends. -/
inductive Stops (whole pre seg rest : List Command) : Prop where
  | closed {l : Nat} {outer : List Nat} (hopen : (recorded pre).openLoops = l :: outer)
      (hclosed : (recorded (pre ++ seg)).openLoops = outer)
      (hnext : (recorded whole).next? l = entrance (pre ++ seg) rest)
  | ended {inner : List Nat} (hrest : rest = [])
      (hopen : (recorded (pre ++ seg)).openLoops = inner ++ (recorded pre).openLoops)

theorem Stops.append (hsame : (recorded (pre ++ seg)).openLoops = (recorded pre).openLoops)
    (h : Stops whole (pre ++ seg) seg' rest) : Stops whole pre (seg ++ seg') rest := by
  cases h with
  | closed hopen hclosed hnext =>
      rw [List.append_assoc] at hclosed hnext
      exact .closed (hsame.symm.trans hopen) hclosed hnext
  | ended hrest hopen =>
      rw [hsame, List.append_assoc] at hopen
      exact .ended hrest hopen

/-- The scan shows what the links show up to where the chain stops. -/
def Shown (whole pre rest : List Command) (depth : Nat) : Prop :=
  ∃ seg rest', rest = seg ++ rest' ∧ Stops whole pre seg rest' ∧
    scan (nodeCount pre) depth rest =
      (recorded whole).rowsAt depth (entrance pre rest) ++
        scan (nodeCount (pre ++ seg)) (depth - 1) rest'

theorem rowsAt_entrance (pre : List Command) (c : Command) (rest : List Command) :
    s.rowsAt depth (entrance pre (c :: rest)) = s.rowsFrom depth (nodeCount pre) := rfl

theorem shown_nil (whole pre : List Command) (depth : Nat) : Shown whole pre [] depth := by
  have hopen : (recorded (pre ++ [])).openLoops = [] ++ (recorded pre).openLoops := by
    rw [List.append_nil, List.nil_append]
  exact ⟨[], [], rfl, .ended rfl hopen, rfl⟩

/-- A command that neither opens nor closes a loop is followed by the rest of its chain. -/
theorem Shown.cons (hw : whole = pre ++ c :: rest) (hc : c.kind ≠ .loopOpen)
    (hsame : (recorded (pre ++ [c])).openLoops = (recorded pre).openLoops)
    (hnext : (recorded whole).next? (seat pre c) = entrance (pre ++ [c]) rest)
    (hscan : scan (nodeCount pre) depth (c :: rest) =
      ⟨depth, nodeCount pre, .token c.token⟩ :: scan (nodeCount (pre ++ [c])) depth rest)
    (h : Shown whole (pre ++ [c]) rest depth) : Shown whole pre (c :: rest) depth := by
  obtain ⟨seg, rest', hsplit, hstops, hrows⟩ := h
  refine ⟨c :: seg, rest', by rw [hsplit, List.cons_append], hstops.append hsame, ?_⟩
  have hrow := rowsFrom_seat hw depth
  rw [hnext, seat_of_ne_loopOpen hc] at hrow
  rw [hscan, hrows, rowsAt_entrance, hrow, List.cons_append, List.append_cons pre c seg]

/-- A closing command without a loop is followed by more of the same chain. -/
theorem tail_unmatched (hk : c.kind = .loopClose) (hopen : (recorded pre).openLoops = []) :
    (recorded (pre ++ [c])).tail = some (seat pre c) := by
  rw [recorded_concat, seat_of_ne_loopOpen (by simp [hk]), ← size_recorded pre]
  simp only [record, hk]
  rw [tail_sealLoop, openLoops_push, if_pos hopen, tail_push]

/-- A command that closes the loop around it is the last of its chain. -/
theorem shown_close {l : Nat} {outer : List Nat} (hw : whole = pre ++ c :: rest)
    (hk : c.kind = .loopClose) (hopen : (recorded pre).openLoops = l :: outer) :
    Shown whole pre (c :: rest) depth := by
  have hrecord := openLoops_record (recorded pre) c
  rw [← recorded_concat, hk, hopen] at hrecord
  have htail : (recorded (pre ++ [c])).tail = some l := by
    rw [recorded_concat]
    simp only [record, hk]
    rw [tail_sealLoop, openLoops_push, if_neg (hopen ▸ List.cons_ne_nil l outer),
      innermost_push, innermost, hopen]
    rfl
  have hrow := rowsFrom_seat hw depth
  have hseat := seat_of_ne_loopOpen (c := c) (by simp [hk]) pre
  have hparent : (recorded (pre ++ [c])).parent? (seat pre c) = some l := by
    rw [recorded_concat, hseat, ← size_recorded pre]
    simp only [record, hk]
    rw [parent?_sealLoop, parent?_push, if_pos rfl, innermost, hopen]
    rfl
  have hlast : (recorded whole).next? (seat pre c) = none := by
    have hcommand := command?_seat pre c rest
    rw [← hw] at hcommand
    refine ((linked_recorded whole).close_last hcommand hk (l := l) ?_).1
    rw [hw, List.append_cons]
    exact parent?_recorded_append hparent rest
  refine ⟨[c], rest, rfl, .closed hopen hrecord ?_, ?_⟩
  · rw [hw, List.append_cons]
    exact next?_tail htail rest
  · rw [hlast, hseat] at hrow
    rw [rowsAt_entrance, hrow]
    simp [scan, hk, rowsAt, lead]

/-- A command that closes no loop changes nothing but the chain that it goes on. -/
theorem shown_unmatched (hw : whole = pre ++ c :: rest) (hk : c.kind = .loopClose)
    (hopen : (recorded pre).openLoops = []) (h : Shown whole (pre ++ [c]) rest 0) :
    Shown whole pre (c :: rest) 0 := by
  have hrecord := openLoops_record (recorded pre) c
  rw [← recorded_concat, hk, hopen] at hrecord
  have hnext : (recorded whole).next? (seat pre c) = entrance (pre ++ [c]) rest := by
    rw [hw, List.append_cons]
    exact next?_tail (tail_unmatched hk hopen) rest
  refine .cons hw (by simp [hk]) (hrecord.trans hopen.symm) hnext ?_ h
  simp [scan, hk, lead]

/-- An opening command is shown on two lines, in front of what its loop holds. -/
theorem rowsAt_opening (hw : whole = pre ++ c :: rest) (hk : c.kind = .loopOpen) (depth : Nat) :
    (recorded whole).rowsAt depth (entrance pre (c :: rest)) =
      ⟨depth, nodeCount pre, .loop⟩ :: ⟨depth + 1, seat pre c, .token c.token⟩ ::
        ((recorded whole).rowsAt (depth + 1) (entrance (pre ++ [c]) rest) ++
          (recorded whole).rowsAt depth ((recorded whole).next? (nodeCount pre))) := by
  have hl := linked_recorded whole
  have hfirst : (recorded whole).first? (nodeCount pre) = some (seat pre c) := by
    rw [seat_of_loopOpen hk]
    exact (hl.opensAt (hw ▸ isLoop_opening hk pre rest)).first
  have hnext : (recorded whole).next? (seat pre c) = entrance (pre ++ [c]) rest :=
    hw ▸ next?_seat (by simp [hk]) pre rest
  rw [rowsAt_entrance, rowsFrom_of_first hl.toThreaded hfirst, rowsFrom_seat hw, hnext]
  rfl

/-- Behind a loop its chain goes on, unless the loop stays open. -/
theorem shown_open (hw : whole = pre ++ c :: rest) (hk : c.kind = .loopOpen)
    (h : Shown whole (pre ++ [c]) rest (depth + 1))
    (hrest : ∀ seg rest', rest = seg ++ rest' →
      (recorded (pre ++ c :: seg)).openLoops = (recorded pre).openLoops →
      Shown whole (pre ++ c :: seg) rest' depth) :
    Shown whole pre (c :: rest) depth := by
  have hrows := rowsAt_opening hw hk depth
  have hscan : scan (nodeCount pre) depth (c :: rest) =
      ⟨depth, nodeCount pre, .loop⟩ :: ⟨depth + 1, seat pre c, .token c.token⟩ ::
        scan (nodeCount (pre ++ [c])) (depth + 1) rest := by
    simp [scan, hk, lead, seat]
  obtain ⟨seg, rest', hsplit, hstops, hinner⟩ := h
  rw [Nat.add_sub_cancel, List.append_assoc] at hinner
  have hopening := openLoops_opening hk pre
  cases hstops with
  | closed hopen hclosed hleads =>
      rw [hopening] at hopen
      obtain ⟨rfl, rfl⟩ := List.cons.inj hopen
      rw [List.append_assoc] at hclosed hleads
      obtain ⟨seg', rest'', hsplit', hstops', houter⟩ := hrest seg rest' hsplit hclosed
      refine ⟨c :: seg ++ seg', rest'', ?_, hstops'.append hclosed, ?_⟩
      · rw [hsplit, hsplit', List.append_assoc, List.cons_append]
      · rw [hscan, hinner, hrows, hleads, List.singleton_append, houter, List.append_assoc]
        simp only [List.cons_append, List.append_assoc]
  | @ended inner hnil hopen =>
      subst hnil
      rw [hopening, List.append_assoc] at hopen
      have hwhole : whole = pre ++ c :: seg := by rw [hw, hsplit, List.append_nil]
      have hstays : (recorded whole).next? (nodeCount pre) = none := by
        apply (linked_recorded whole).open_next
        rw [hwhole]
        exact hopen ▸ List.mem_append_right inner List.mem_cons_self
      refine ⟨c :: seg, [], by rw [hsplit, List.cons_append], ?_, ?_⟩
      · rw [List.append_cons] at hopen
        exact .ended rfl hopen
      · rw [hscan, hinner, hrows, hstays]
        simp only [scan, rowsAt, List.append_nil]

/-- Behind every beginning of the script the scan and the links show the same. -/
theorem shown (hw : whole = pre ++ rest) (hdepth : depth = (recorded pre).openLoops.length) :
    Shown whole pre rest depth := by
  induction hn : rest.length using Nat.strongRecOn generalizing pre rest depth with
  | ind n ih =>
      cases rest with
      | nil => exact shown_nil whole pre depth
      | cons c rest =>
          have hlt : rest.length < n := by
            rw [← hn, List.length_cons]
            omega
          have hbehind : whole = pre ++ [c] ++ rest := hw.trans (List.append_cons pre c rest)
          have hrecord := openLoops_record (recorded pre) c
          rw [← recorded_concat] at hrecord
          cases hk : c.kind with
          | simple action =>
              simp only [hk] at hrecord
              refine .cons hw (by simp [hk]) hrecord (hw ▸ next?_seat (by simp [hk]) pre rest)
                (by simp [scan, hk, lead]) (ih _ hlt hbehind (hrecord ▸ hdepth) rfl)
          | loopOpen =>
              simp only [hk] at hrecord
              refine shown_open hw hk (ih _ hlt hbehind ?_ rfl) fun seg rest' hsplit hsame => ?_
              · rw [hrecord, hdepth, List.length_cons]
              · have hle : rest'.length < n := by
                  rw [hsplit, List.length_append] at hlt
                  omega
                refine ih _ hle ?_ (hsame ▸ hdepth) rfl
                rw [hw, hsplit, List.append_assoc, List.cons_append]
          | loopClose =>
              simp only [hk] at hrecord
              cases hopen : (recorded pre).openLoops with
              | cons l outer => exact shown_close hw hk hopen
              | nil =>
                  rw [hopen] at hdepth hrecord
                  subst hdepth
                  exact shown_unmatched hw hk hopen (ih _ hlt hbehind (hrecord ▸ rfl) rfl)

/-- The listing is read off the commands alone. -/
theorem rows_recorded (commands : List Command) :
    (recorded commands).rows = Listing.ofCommands commands := by
  have hwhole : commands = [] ++ commands := (List.nil_append commands).symm
  obtain ⟨seg, rest', hsplit, hstops, hrows⟩ := shown hwhole rfl
  cases hstops with
  | closed hopen => cases hopen
  | ended hrest =>
      subst hrest
      have hscan : Listing.ofCommands commands =
          (recorded commands).rowsAt 0 (entrance [] commands) ++ [] := hrows
      rw [hscan, List.append_nil]
      cases commands with
      | nil =>
          have hsize : ¬0 < (recorded []).nodes.size := Nat.lt_irrefl 0
          rw [rows, rowsFrom, dif_neg hsize]
          rfl
      | cons c commands => rfl

end TapeScript.Skeleton
