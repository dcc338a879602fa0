import TapeScript.Proofs.Skeleton.Access

/-! # The recorded part of a skeleton

Nodes, open loops and the tail are what recording works on. Going through the recorded
commands changes none of them. -/

namespace TapeScript.Skeleton

variable {s t : Skeleton}

/-- Both records hold the same nodes and go on at the same place. -/
structure SameShape (s t : Skeleton) : Prop where
  nodes : s.nodes = t.nodes
  openLoops : s.openLoops = t.openLoops
  tail : s.tail = t.tail

namespace SameShape

theorem refl (s : Skeleton) : s.SameShape s := ⟨rfl, rfl, rfl⟩

theorem trans {u : Skeleton} (h : s.SameShape t) (h' : t.SameShape u) : s.SameShape u :=
  ⟨h.nodes.trans h'.nodes, h.openLoops.trans h'.openLoops, h.tail.trans h'.tail⟩

theorem size (h : s.SameShape t) : s.size = t.size := by simp only [Skeleton.size, h.nodes]

theorem entry (h : s.SameShape t) (id : Nat) : s.entry? id = t.entry? id := by
  simp only [h.nodes, Skeleton.entry?]

theorem next? (h : s.SameShape t) (id : Nat) : s.next? id = t.next? id := by
  simp only [Skeleton.next?, h.nodes]

theorem prev? (h : s.SameShape t) (id : Nat) : s.prev? id = t.prev? id := by
  simp only [Skeleton.prev?, h.nodes]

theorem command? (h : s.SameShape t) (id : Nat) : s.command? id = t.command? id := by
  simp only [Skeleton.command?, h.entry]

theorem parent? (h : s.SameShape t) (id : Nat) : s.parent? id = t.parent? id := by
  simp only [Skeleton.parent?, h.entry]

theorem ownLoop? (h : s.SameShape t) (id : Nat) : s.ownLoop? id = t.ownLoop? id := by
  simp only [Skeleton.ownLoop?, h.entry]

theorem target? (h : s.SameShape t) (id : Nat) : s.target? id = t.target? id := by
  simp only [Skeleton.target?, h.entry]

theorem first? (h : s.SameShape t) (id : Nat) : s.first? id = t.first? id := by
  simp only [Skeleton.first?, h.entry]

theorem isLoop (h : s.SameShape t) (id : Nat) : s.IsLoop id ↔ t.IsLoop id := by
  simp only [IsLoop, h.entry]

theorem innermost (h : s.SameShape t) : s.innermost = t.innermost := by
  simp only [Skeleton.innermost, h.openLoops]

theorem chainStart (h : s.SameShape t) (id : Nat) : s.chainStart id = t.chainStart id := by
  induction id using Nat.strongRecOn with
  | ind id ih =>
      rw [Skeleton.chainStart, Skeleton.chainStart, h.prev?]
      split
      · split
        · rename_i hlt
          exact ih _ hlt
        · rfl
      · rfl

theorem push (h : s.SameShape t) (c : Command) : (s.push c).SameShape (t.push c) := by
  obtain ⟨nodes, _, _, openLoops, tail, _, _⟩ := s
  obtain ⟨nodes', _, _, openLoops', tail', _, _⟩ := t
  obtain ⟨rfl, rfl, rfl⟩ := h
  exact ⟨rfl, rfl, rfl⟩

theorem beginLoop (h : s.SameShape t) : s.beginLoop.SameShape t.beginLoop := by
  obtain ⟨nodes, _, _, openLoops, tail, _, _⟩ := s
  obtain ⟨nodes', _, _, openLoops', tail', _, _⟩ := t
  obtain ⟨rfl, rfl, rfl⟩ := h
  exact ⟨rfl, rfl, rfl⟩

end SameShape

@[simp] theorem openLoops_push (c : Command) (s : Skeleton) :
    (s.push c).openLoops = s.openLoops := rfl

@[simp] theorem tail_push (c : Command) (s : Skeleton) : (s.push c).tail = some s.size := rfl

@[simp] theorem innermost_push (c : Command) (s : Skeleton) :
    (s.push c).innermost = s.innermost := rfl

@[simp] theorem openLoops_beginLoop (s : Skeleton) :
    s.beginLoop.openLoops = s.size :: s.openLoops := rfl

@[simp] theorem tail_beginLoop (s : Skeleton) : s.beginLoop.tail = none := rfl

@[simp] theorem innermost_beginLoop (s : Skeleton) :
    s.beginLoop.innermost = some s.size := rfl

@[simp] theorem openLoops_sealLoop (s : Skeleton) :
    s.sealLoop.state.openLoops = s.openLoops.tail := by
  obtain ⟨nodes, pending, last, openLoops, tail, scanned, skipped⟩ := s
  cases openLoops with
  | nil => rfl
  | cons => simp only [sealLoop]; split <;> rfl

theorem next?_sealLoop (s : Skeleton) (id : Nat) : s.sealLoop.state.next? id = s.next? id := by
  simp only [next?, nodes_sealLoop]

theorem entry?_sealLoop (s : Skeleton) (id : Nat) :
    s.sealLoop.state.entry? id = s.entry? id := by
  simp only [nodes_sealLoop, entry?]

theorem command?_sealLoop (s : Skeleton) (id : Nat) :
    s.sealLoop.state.command? id = s.command? id := by
  simp only [command?, entry?_sealLoop]

theorem parent?_sealLoop (s : Skeleton) (id : Nat) :
    s.sealLoop.state.parent? id = s.parent? id := by
  simp only [parent?, entry?_sealLoop]

theorem isLoop_sealLoop (s : Skeleton) (id : Nat) :
    s.sealLoop.state.IsLoop id ↔ s.IsLoop id := by
  simp only [IsLoop, entry?_sealLoop]

theorem first?_sealLoop (s : Skeleton) (id : Nat) :
    s.sealLoop.state.first? id = s.first? id := by
  simp only [first?, entry?_sealLoop]

/-- A sealed loop is where its chain goes on; a close without a loop changes nothing. -/
theorem tail_sealLoop (s : Skeleton) :
    s.sealLoop.state.tail = if s.openLoops = [] then s.tail else s.innermost := by
  obtain ⟨nodes, pending, last, openLoops, tail, scanned, skipped⟩ := s
  cases openLoops with
  | nil => rfl
  | cons => simp only [sealLoop]; split <;> rfl

theorem fault?_sealLoop (s : Skeleton) :
    s.sealLoop.fault? = if s.openLoops = [] then some .unmatchedClose else none := by
  obtain ⟨nodes, pending, last, openLoops, tail, scanned, skipped⟩ := s
  cases openLoops with
  | nil => rfl
  | cons => simp only [sealLoop]; split <;> rfl

theorem sameShape_take (s : Skeleton) : s.take.2.SameShape s := by
  simp only [take]
  split <;> exact ⟨rfl, rfl, rfl⟩

theorem sameShape_leaveLoop (s : Skeleton) : s.leaveLoop.SameShape s := by
  simp only [leaveLoop]
  split
  · exact .refl s
  · split <;> exact ⟨rfl, rfl, rfl⟩

theorem sameShape_repeatLoop (s : Skeleton) : s.repeatLoop.SameShape s := by
  simp only [repeatLoop]
  split <;> exact ⟨rfl, rfl, rfl⟩

end TapeScript.Skeleton
