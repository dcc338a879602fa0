import TapeScript.Skeleton.Basic

/-! # What a recorded command changes, node by node -/

namespace TapeScript.Skeleton

variable {s : Skeleton} {id : Nat}

/-- The node stands for a loop. -/
def IsLoop (s : Skeleton) (id : Nat) : Prop :=
  ∃ first parent, s.entry? id = some (.loop first parent)

/-! ## Nodes and their kinds -/

theorem getElem?_eq_none (h : s.size ≤ id) : s.nodes[id]? = none :=
  Array.getElem?_eq_none h

theorem entry?_of_getElem? {node : Node} (h : s.nodes[id]? = some node) :
    s.entry? id = some node.entry := by
  simp only [h, entry?, Option.map_some]

theorem entry?_eq_none (h : s.size ≤ id) : s.entry? id = none := by
  simp [getElem?_eq_none h, entry?]

theorem next?_eq_none (h : s.size ≤ id) : s.next? id = none := by
  simp [next?, getElem?_eq_none h]

theorem prev?_eq_none (h : s.size ≤ id) : s.prev? id = none := by
  simp [prev?, getElem?_eq_none h]

theorem command?_eq_none (h : s.size ≤ id) : s.command? id = none := by
  simp [command?, entry?_eq_none h]

theorem parent?_eq_none (h : s.size ≤ id) : s.parent? id = none := by
  simp [parent?, entry?_eq_none h]

theorem first?_eq_none (h : s.size ≤ id) : s.first? id = none := by
  simp [first?, entry?_eq_none h]

/-- A partial reading that is undefined outside the record is defined inside only. -/
theorem lt_size_of_isSome {α : Type} {read : Nat → Option α} {a : α}
    (outside : s.size ≤ id → read id = none) (h : read id = some a) : id < s.size := by
  rcases Nat.lt_or_ge id s.size with hlt | hge
  · exact hlt
  · rw [outside hge] at h
    cases h

theorem lt_size_of_next? {b : Nat} (h : s.next? id = some b) : id < s.size :=
  lt_size_of_isSome next?_eq_none h

theorem lt_size_of_prev? {b : Nat} (h : s.prev? id = some b) : id < s.size :=
  lt_size_of_isSome prev?_eq_none h

theorem lt_size_of_command? {c : Command} (h : s.command? id = some c) : id < s.size :=
  lt_size_of_isSome command?_eq_none h

theorem lt_size_of_parent? {l : Nat} (h : s.parent? id = some l) : id < s.size :=
  lt_size_of_isSome parent?_eq_none h

theorem IsLoop.lt_size (h : s.IsLoop id) : id < s.size := by
  obtain ⟨first, parent, he⟩ := h
  exact lt_size_of_isSome entry?_eq_none he

theorem IsLoop.of_first? {f : Nat} (h : s.first? id = some f) : s.IsLoop id := by
  simp only [first?] at h
  split at h
  · rename_i first parent he
    exact ⟨first, parent, he⟩
  · cases h

theorem IsLoop.target? (h : s.IsLoop id) : s.target? id = s.first? id := by
  obtain ⟨first, parent, he⟩ := h
  simp [Skeleton.target?, Skeleton.first?, he]

theorem ownLoop?_of_command? {c : Command} (h : s.command? id = some c) :
    s.ownLoop? id = s.parent? id := by
  simp only [command?] at h
  split at h
  · rename_i he
    simp [ownLoop?, parent?, he]
  · cases h

theorem target?_of_command? {c : Command} (h : s.command? id = some c) :
    s.target? id = some id := by
  simp only [command?] at h
  split at h
  · rename_i he
    simp [target?, he]
  · cases h

/-! ## A node is added -/

theorem getElem?_extend (nodes : Array Node) (tail : Option Nat) (entry : Entry) (id : Nat) :
    (extend nodes tail entry)[id]? =
      if id = nodes.size then some ⟨tail, none, entry⟩
      else if tail = some id then nodes[id]?.map (·.follow nodes.size)
      else nodes[id]? := by
  cases tail with
  | none => simp [extend, Array.getElem?_push]
  | some t => simp [extend, Array.getElem?_push, Array.getElem?_modify]

theorem getElem?_adoptFirst (nodes : Array Node) (loop : Option Nat) (first id : Nat) :
    (adoptFirst nodes loop first)[id]? =
      if loop = some id then nodes[id]?.map (·.adopt first) else nodes[id]? := by
  cases loop with
  | none => simp [adoptFirst]
  | some l => simp [adoptFirst, Array.getElem?_modify]

theorem next_extend (nodes : Array Node) (tail : Option Nat) (entry : Entry) (id : Nat) :
    (extend nodes tail entry)[id]?.bind (·.next) =
      if tail = some id ∧ id < nodes.size then some nodes.size else nodes[id]?.bind (·.next) := by
  rw [getElem?_extend]
  rcases Nat.lt_trichotomy id nodes.size with h | rfl | h
  · by_cases ht : tail = some id <;> simp [ht, h, Nat.ne_of_lt h, Node.follow]
  · simp
  · simp [Nat.ne_of_gt h, Nat.lt_asymm h]

theorem prev_extend (nodes : Array Node) (tail : Option Nat) (entry : Entry) (id : Nat) :
    (extend nodes tail entry)[id]?.bind (·.prev) =
      if id = nodes.size then tail else nodes[id]?.bind (·.prev) := by
  rw [getElem?_extend]
  by_cases h : id = nodes.size
  · simp [h]
  · by_cases ht : tail = some id <;> cases nodes[id]? <;> simp [h, ht, Node.follow]

theorem entry_extend (nodes : Array Node) (tail : Option Nat) (entry : Entry) (id : Nat) :
    (extend nodes tail entry)[id]?.map (·.entry) =
      if id = nodes.size then some entry else nodes[id]?.map (·.entry) := by
  rw [getElem?_extend]
  by_cases h : id = nodes.size
  · simp [h]
  · by_cases ht : tail = some id <;> cases nodes[id]? <;> simp [h, ht, Node.follow]

@[simp] theorem Node.next_adopt (first : Nat) (n : Node) : (n.adopt first).next = n.next := by
  simp only [Node.adopt]
  split <;> rfl

@[simp] theorem Node.prev_adopt (first : Nat) (n : Node) : (n.adopt first).prev = n.prev := by
  simp only [Node.adopt]
  split <;> rfl

theorem next_adoptFirst (nodes : Array Node) (loop : Option Nat) (first id : Nat) :
    (adoptFirst nodes loop first)[id]?.bind (·.next) = nodes[id]?.bind (·.next) := by
  rw [getElem?_adoptFirst]
  split <;> cases nodes[id]? <;> simp

theorem prev_adoptFirst (nodes : Array Node) (loop : Option Nat) (first id : Nat) :
    (adoptFirst nodes loop first)[id]?.bind (·.prev) = nodes[id]?.bind (·.prev) := by
  rw [getElem?_adoptFirst]
  split <;> cases nodes[id]? <;> simp

theorem next?_push (c : Command) (s : Skeleton) (id : Nat) :
    (s.push c).next? id =
      if s.tail = some id ∧ id < s.size then some s.size else s.next? id := by
  simp only [push, next?, next_extend, size_adoptFirst, next_adoptFirst, size]
  rfl

theorem prev?_push (c : Command) (s : Skeleton) (id : Nat) :
    (s.push c).prev? id = if id = s.size then s.tail else s.prev? id := by
  simp only [push, prev?, prev_extend, size_adoptFirst, prev_adoptFirst, size]
  rfl

theorem next?_beginLoop (s : Skeleton) (id : Nat) :
    s.beginLoop.next? id =
      if s.tail = some id ∧ id < s.size then some s.size else s.next? id := by
  simp only [beginLoop, next?, next_extend, size]
  rfl

theorem prev?_beginLoop (s : Skeleton) (id : Nat) :
    s.beginLoop.prev? id = if id = s.size then s.tail else s.prev? id := by
  simp only [beginLoop, prev?, prev_extend, size]
  rfl

theorem entry?_beginLoop (s : Skeleton) (id : Nat) :
    s.beginLoop.entry? id =
      if id = s.size then some (.loop none s.innermost) else s.entry? id := by
  simp only [beginLoop, entry?, entry_extend, size, innermost]
  rfl

/-- A loop without a body takes its first node. -/
theorem entry?_push (c : Command) (s : Skeleton) (id : Nat) :
    entry? (s.push c) id =
      if id = s.size then some (.op c s.innermost)
      else match s.entry? id with
        | some (.loop none parent) =>
            some (.loop (if s.innermost = some id then some s.size else none) parent)
        | entry => entry := by
  simp only [push, entry?, entry_extend, size_adoptFirst, size, innermost, getElem?_adoptFirst]
  by_cases h : id = s.nodes.size
  · simp [h]
  · cases hn : s.nodes[id]? with
    | none => simp [h]
    | some n =>
        obtain ⟨prev, next, entry⟩ := n
        simp only [h, if_false]
        rcases entry with _ | ⟨_ | _, _⟩ <;> by_cases hl : s.openLoops.head? = some id <;>
          simp [hl, Node.adopt]

theorem command?_push (c : Command) (s : Skeleton) (id : Nat) :
    (s.push c).command? id = if id = s.size then some c else s.command? id := by
  simp only [command?, entry?_push]
  by_cases h : id = s.size
  · simp [h]
  · rcases s.entry? id with _ | _ | ⟨_ | _, _⟩ <;> simp [h]

theorem parent?_push (c : Command) (s : Skeleton) (id : Nat) :
    (s.push c).parent? id = if id = s.size then s.innermost else s.parent? id := by
  simp only [parent?, entry?_push]
  by_cases h : id = s.size
  · simp [h]
  · rcases s.entry? id with _ | _ | ⟨_ | _, _⟩ <;> simp [h]

theorem isLoop_push (c : Command) (s : Skeleton) (id : Nat) :
    (s.push c).IsLoop id ↔ s.IsLoop id := by
  simp only [IsLoop, entry?_push]
  by_cases h : id = s.size
  · simp [h, entry?_eq_none (Nat.le_refl _)]
  · rcases s.entry? id with _ | _ | ⟨_ | _, _⟩ <;> simp [h]

theorem first?_push_of_ne (c : Command) (h : s.innermost ≠ some id ∨ s.first? id ≠ none) :
    (s.push c).first? id = s.first? id := by
  simp only [first?, entry?_push] at h ⊢
  by_cases hid : id = s.size
  · simp [hid, entry?_eq_none (Nat.le_refl _)]
  · rcases he : s.entry? id with _ | _ | ⟨_ | _, _⟩ <;> simp_all

/-- The innermost open loop takes its first node, once. -/
theorem first?_push_innermost (c : Command) (h : s.innermost = some id) (hl : s.IsLoop id)
    (hf : s.first? id = none) : (s.push c).first? id = some s.size := by
  have hid : id ≠ s.size := Nat.ne_of_lt hl.lt_size
  obtain ⟨first, parent, he⟩ := hl
  simp only [first?, he] at hf
  simp [first?, entry?_push, hid, he, hf, h]

theorem command?_beginLoop (s : Skeleton) (id : Nat) :
    s.beginLoop.command? id = s.command? id := by
  simp only [command?, entry?_beginLoop]
  by_cases h : id = s.size
  · simp [h, entry?_eq_none (Nat.le_refl _)]
  · simp [h]

theorem parent?_beginLoop (s : Skeleton) (id : Nat) :
    s.beginLoop.parent? id = if id = s.size then s.innermost else s.parent? id := by
  simp only [parent?, entry?_beginLoop]
  by_cases h : id = s.size <;> simp [h]

theorem isLoop_beginLoop (s : Skeleton) (id : Nat) :
    s.beginLoop.IsLoop id ↔ id = s.size ∨ s.IsLoop id := by
  simp only [IsLoop, entry?_beginLoop]
  by_cases h : id = s.size <;> simp [h]

theorem first?_beginLoop (s : Skeleton) (id : Nat) :
    s.beginLoop.first? id = s.first? id := by
  simp only [first?, entry?_beginLoop]
  by_cases h : id = s.size
  · simp [h, entry?_eq_none (Nat.le_refl _)]
  · simp [h]

end TapeScript.Skeleton
