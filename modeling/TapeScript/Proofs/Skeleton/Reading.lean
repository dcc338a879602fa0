import TapeScript.Proofs.Skeleton.Rows

/-! # What is recorded, read off the commands

The size of a skeleton, its loops, the loops that are open and its listing depend on the
recorded commands alone. -/

namespace TapeScript

/-- The depth behind brackets, where a closing one without an opening one stays at depth 0. -/
def Bracket.levelFrom (depth : Nat) : List Bracket → Nat
  | [] => depth
  | opening :: rest => levelFrom (depth + 1) rest
  | closing :: rest => levelFrom (depth - 1) rest

theorem Bracket.levelFrom_append (depth : Nat) (xs ys : List Bracket) :
    levelFrom depth (xs ++ ys) = levelFrom (levelFrom depth xs) ys := by
  induction xs generalizing depth with
  | nil => rfl
  | cons x xs ih =>
      cases x with
      | opening => exact ih (depth + 1)
      | closing => exact ih (depth - 1)

namespace Skeleton

variable {commands : List Command} {l i : Nat}

/-- How many commands open a loop. -/
def opens (commands : List Command) : Nat := commands.countP (·.isLoopOpen)

theorem lead_eq (c : Command) : lead c = opens [c] := by
  simp only [lead, opens, List.countP_singleton, Command.isLoopOpen]
  cases c.kind <;> rfl

theorem nodeCount_eq (commands : List Command) :
    nodeCount commands = commands.length + opens commands := by
  induction commands with
  | nil => rfl
  | cons c commands ih =>
      have hopens : opens (c :: commands) = lead c + opens commands := by
        rw [lead_eq, opens, ← List.singleton_append, List.countP_append]
        rfl
      rw [nodeCount_cons, ih, hopens, List.length_cons]
      omega

/-! ## The number of loops -/

theorem countP_modify {p : Node → Bool} {f : Node → Node} (hf : ∀ n, p (f n) = p n)
    (nodes : Array Node) (i : Nat) : (nodes.modify i f).countP p = nodes.countP p := by
  have hmap : (nodes.modify i f).map p = nodes.map p := by
    apply Array.ext
    · simp
    · intro j hj hj'
      rw [Array.getElem_map, Array.getElem_map, Array.getElem_modify]
      split
      · exact hf _
      · rfl
  have hcount (nodes : Array Node) : nodes.countP p = (nodes.map p).countP id := by
    rw [Array.countP_map]
    rfl
  rw [hcount, hmap, ← hcount]

theorem countP_extend (nodes : Array Node) (tail : Option Nat) (entry : Entry) :
    (extend nodes tail entry).countP (·.isLoop) =
      nodes.countP (·.isLoop) + if (Node.mk none none entry).isLoop then 1 else 0 := by
  cases tail with
  | none => exact Array.countP_push
  | some t =>
      have hfollow (n : Node) : (n.follow nodes.size).isLoop = n.isLoop := rfl
      rw [extend, Array.countP_push, countP_modify hfollow]
      rfl

theorem countP_adoptFirst (nodes : Array Node) (loop : Option Nat) (first : Nat) :
    (adoptFirst nodes loop first).countP (·.isLoop) = nodes.countP (·.isLoop) := by
  cases loop with
  | none => rfl
  | some l =>
      refine countP_modify (fun n => ?_) nodes l
      obtain ⟨prev, next, entry⟩ := n
      cases entry with
      | op => rfl
      | loop first' => cases first' <;> rfl

theorem loops_push (c : Command) (s : Skeleton) : (s.push c).loops = s.loops := by
  rw [loops, push, countP_extend, countP_adoptFirst]
  rfl

theorem loops_beginLoop (s : Skeleton) : s.beginLoop.loops = s.loops + 1 := by
  rw [loops, beginLoop, countP_extend]
  rfl

theorem loops_record (c : Command) (s : Skeleton) :
    (s.record c).state.loops = s.loops + lead c := by
  simp only [record, lead]
  cases c.kind with
  | simple action => exact loops_push c s
  | loopOpen => exact (loops_push c s.beginLoop).trans (loops_beginLoop s)
  | loopClose =>
      simp only [loops, nodes_sealLoop]
      exact loops_push c s

theorem loops_recorded (commands : List Command) :
    (recorded commands).loops = opens commands := by
  induction commands using List.reverseRecOn with
  | nil => rfl
  | append_singleton commands c ih =>
      rw [recorded_concat, loops_record, ih, lead_eq, opens, opens, opens, List.countP_append]

/-! ## Open loops -/

theorem depth_recorded (commands : List Command) :
    (recorded commands).depth = Bracket.levelFrom 0 (Bracket.ofCommands commands) := by
  induction commands using List.reverseRecOn with
  | nil => rfl
  | append_singleton commands c ih =>
      rw [recorded_concat, Bracket.ofCommands_append, Bracket.levelFrom_append, ← ih, depth, depth,
        openLoops_record, Bracket.ofCommands_cons]
      cases c.kind with
      | simple action => rfl
      | loopOpen => rfl
      | loopClose => exact List.length_tail

/-- The command before `body` opens a loop, the loop `l`, and `body` leaves it open with as many
loops inside it as `depth`. -/
def OpenedBy (commands : List Command) (depth l : Nat) : Prop :=
  ∃ pre o body, commands = pre ++ o :: body ∧ o.kind = .loopOpen ∧
    Bracket.depthFrom? 0 (Bracket.ofCommands body) = some depth ∧ l = nodeCount pre

theorem openedBy_of_openLoops (h : (recorded commands).openLoops[i]? = some l) :
    OpenedBy commands i l := by
  induction commands using List.reverseRecOn generalizing i with
  | nil => cases h
  | append_singleton commands c ih =>
      -- an opening command found before `c` opens the same loop, with one more or less inside
      have hbefore {i d : Nat} (h : (recorded commands).openLoops[i]? = some l)
          (hd : Bracket.depthFrom? i (Bracket.ofCommands [c]) = some d) :
          OpenedBy (commands ++ [c]) d l := by
        obtain ⟨pre, o, body, rfl, ho, hbody, rfl⟩ := ih h
        refine ⟨pre, o, body ++ [c], by simp, ho, ?_, rfl⟩
        rw [Bracket.ofCommands_append, Bracket.depthFrom?_append, hbody, Option.bind_some, hd]
      rw [recorded_concat, openLoops_record] at h
      cases hk : c.kind with
      | simple action =>
          rw [hk] at h
          exact hbefore h (by rw [Bracket.ofCommands_cons, hk]; rfl)
      | loopOpen =>
          rw [hk] at h
          cases i with
          | zero =>
              obtain rfl := Option.some.inj h
              exact ⟨commands, c, [], rfl, hk, rfl, size_recorded commands⟩
          | succ i => exact hbefore h (by rw [Bracket.ofCommands_cons, hk]; rfl)
      | loopClose =>
          rw [hk] at h
          dsimp only at h
          rw [List.getElem?_tail] at h
          exact hbefore h (by rw [Bracket.ofCommands_cons, hk]; rfl)

/-- The innermost open loop belongs to the last opening command behind which the brackets are
balanced. -/
theorem innermost_recorded :
    (recorded commands).innermost = some l ↔
      ∃ pre o body, commands = pre ++ o :: body ∧ o.kind = .loopOpen ∧
        Bracket.Balanced (Bracket.ofCommands body) ∧ l = nodeCount pre := by
  constructor
  · intro h
    exact openedBy_of_openLoops (i := 0) (by rwa [innermost, List.head?_eq_getElem?] at h)
  · rintro ⟨pre, o, body, rfl, ho, hbody, rfl⟩
    rw [innermost, openLoops_body ho hbody]
    rfl

/-! ## The skeleton as a whole -/

/-- The listing looks at the nodes only. -/
theorem SameShape.rowsFrom {s t : Skeleton} (h : s.SameShape t) (depth id : Nat) :
    s.rowsFrom depth id = t.rowsFrom depth id := by
  obtain ⟨nodes, pending, last, openLoops, tail, scanned, skipped⟩ := s
  obtain ⟨_, pending', last', _, _, scanned', skipped'⟩ := t
  obtain ⟨rfl, rfl, rfl⟩ := h
  dsimp only at *
  induction hn : nodes.size - id using Nat.strongRecOn generalizing depth id with
  | ind n ih =>
      rw [Skeleton.rowsFrom, Skeleton.rowsFrom]
      by_cases hid : id < nodes.size
      · have hlinked (d later : Nat) :
            (if id < later then Skeleton.rowsFrom
              ⟨nodes, pending, last, openLoops, tail, scanned, skipped⟩ d later else []) =
            if id < later then Skeleton.rowsFrom
              ⟨nodes, pending', last', openLoops, tail, scanned', skipped'⟩ d later else [] :=
          ite_congr rfl (fun hlt => ih (nodes.size - later) (by omega) d later rfl) fun _ => rfl
        simp only [dif_pos hid, hlinked]
      · simp only [dif_neg hid]

/-- The skeleton holds what the commands say, whatever came of executing them. -/
structure ReadsAs (s : Skeleton) (commands : List Command) : Prop where
  size : s.size = commands.length + opens commands
  loops : s.loops = opens commands
  depth : s.depth = Bracket.levelFrom 0 (Bracket.ofCommands commands)
  innermost : ∀ l, s.innermost = some l ↔
    ∃ pre o body, commands = pre ++ o :: body ∧ o.kind = .loopOpen ∧
      Bracket.Balanced (Bracket.ofCommands body) ∧ l = pre.length + opens pre
  rows : s.rows = Listing.ofCommands commands
  listing : s.listing = Listing.text (Listing.ofCommands commands)

theorem SameShape.readsAs {s : Skeleton} (h : s.SameShape (recorded commands)) :
    s.ReadsAs commands := by
  have hrows : s.rows = Listing.ofCommands commands :=
    (h.rowsFrom 0 0).trans (rows_recorded commands)
  refine ⟨?_, ?_, ?_, fun l => ?_, hrows, congrArg Listing.text hrows⟩
  · rw [h.size, size_recorded, nodeCount_eq]
  · rw [Skeleton.loops, h.nodes]
    exact loops_recorded commands
  · rw [Skeleton.depth, h.openLoops]
    exact depth_recorded commands
  · simp only [h.innermost, innermost_recorded, nodeCount_eq]

end Skeleton

end TapeScript
