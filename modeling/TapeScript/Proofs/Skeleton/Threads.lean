import TapeScript.Proofs.Skeleton.Shape

/-! # Links under any order of recording

Successors come later and predecessors earlier, whatever is recorded in whatever order.
Nothing follows an open loop or the tail, so a new node never cuts a chain. -/

namespace TapeScript.Skeleton

variable {s t : Skeleton} {a b id l : Nat}

/-- Links lead forward and are mutual, and the places to go on at have no successor. -/
structure Threaded (s : Skeleton) : Prop where
  next_lt : ∀ ⦃a b⦄, s.next? a = some b → a < b
  next_iff_prev : ∀ a b, s.next? a = some b ↔ s.prev? b = some a
  first_gt : ∀ ⦃l f⦄, s.first? l = some f → l < f ∧ f < s.size
  parent_lt : ∀ ⦃id l⦄, s.parent? id = some l → l < id
  open_lt : ∀ ⦃l⦄, l ∈ s.openLoops → l < s.size
  open_next : ∀ ⦃l⦄, l ∈ s.openLoops → s.next? l = none
  open_sorted : s.openLoops.Pairwise (· > ·)
  tail_lt : ∀ ⦃t⦄, s.tail = some t → t < s.size
  tail_next : ∀ ⦃t⦄, s.tail = some t → s.next? t = none
  tail_not_open : ∀ ⦃t⦄, s.tail = some t → t ∉ s.openLoops

theorem Threaded.empty : Threaded {} := by
  constructor <;> simp [next?, prev?, first?, parent?, entry?]

theorem Threaded.of_sameShape (h : t.Threaded) (hs : s.SameShape t) : s.Threaded := by
  obtain ⟨nodes, _, _, openLoops, tail, _, _⟩ := s
  obtain ⟨nodes', _, _, openLoops', tail', _, _⟩ := t
  obtain ⟨rfl, rfl, rfl⟩ := hs
  exact ⟨h.1, h.2, h.3, h.4, h.5, h.6, h.7, h.8, h.9, h.10⟩

theorem Threaded.next_lt_size (h : s.Threaded) (hn : s.next? a = some b) : b < s.size :=
  lt_size_of_prev? ((h.next_iff_prev a b).mp hn)

theorem Threaded.innermost_lt (h : s.Threaded) (hl : s.innermost = some l) : l < s.size :=
  h.open_lt (List.mem_of_head? hl)

/-! ## One more node -/

/-- One node is added behind the tail, inside the innermost open loop. -/
structure Grows (s t : Skeleton) : Prop where
  size : t.size = s.size + 1
  next? : ∀ id, t.next? id = if s.tail = some id ∧ id < s.size then some s.size else s.next? id
  prev? : ∀ id, t.prev? id = if id = s.size then s.tail else s.prev? id
  parent? : ∀ id, t.parent? id = if id = s.size then s.innermost else s.parent? id

theorem grows_push (c : Command) (s : Skeleton) : s.Grows (s.push c) :=
  ⟨size_push c s, next?_push c s, prev?_push c s, parent?_push c s⟩

theorem grows_beginLoop (s : Skeleton) : s.Grows s.beginLoop :=
  ⟨size_beginLoop s, next?_beginLoop s, prev?_beginLoop s, parent?_beginLoop s⟩

namespace Grows

theorem next?_size (g : s.Grows t) : t.next? s.size = none := by
  rw [g.next?, if_neg (by simp), next?_eq_none (Nat.le_refl _)]

theorem next?_of_ne (g : s.Grows t) (h : s.tail ≠ some id) : t.next? id = s.next? id := by
  rw [g.next?, if_neg (by simp [h])]

theorem next_lt (g : s.Grows t) (h : s.Threaded) (hn : t.next? a = some b) : a < b := by
  rw [g.next?] at hn
  split at hn
  · rename_i hta
    simp only [Option.some.injEq] at hn
    exact hn ▸ hta.2
  · exact h.next_lt hn

theorem next_iff_prev (g : s.Grows t) (h : s.Threaded) (a b : Nat) :
    t.next? a = some b ↔ t.prev? b = some a := by
  rw [g.next?, g.prev?]
  by_cases ht : s.tail = some a
  · have hlt := h.tail_lt ht
    by_cases hb : b = s.size
    · simp [ht, hlt, hb]
    · simp [ht, hlt, hb, Ne.symm hb, ← h.next_iff_prev a b, h.tail_next ht]
  · by_cases hb : b = s.size
    · have hn : s.next? a ≠ some s.size := fun hn => Nat.lt_irrefl _ (h.next_lt_size hn)
      simp [ht, hb, hn]
    · simp [ht, hb, h.next_iff_prev a b]

theorem parent_lt (g : s.Grows t) (h : s.Threaded) (hp : t.parent? id = some l) : l < id := by
  rw [g.parent?] at hp
  split at hp
  · rename_i hid
    exact hid ▸ h.innermost_lt hp
  · exact h.parent_lt hp

/-- An open loop is never the tail, so nothing is put behind it. -/
theorem open_next (g : s.Grows t) (h : s.Threaded) (hl : l ∈ s.openLoops) :
    t.next? l = none := by
  rw [g.next?_of_ne (fun ht => h.tail_not_open ht hl)]
  exact h.open_next hl

end Grows

/-! ## Every way of recording -/

theorem first?_push_eq_some {c : Command} {f : Nat} (h : (s.push c).first? l = some f) :
    s.first? l = some f ∨ (s.innermost = some l ∧ f = s.size) := by
  by_cases hn : s.innermost = some l ∧ s.first? l = none
  · have hl : s.IsLoop l := (isLoop_push c s l).mp (.of_first? h)
    rw [first?_push_innermost c hn.1 hl hn.2] at h
    exact .inr ⟨hn.1, (Option.some.inj h).symm⟩
  · rw [first?_push_of_ne c (Classical.not_and_iff_not_or_not.mp hn)] at h
    exact .inl h

namespace Threaded

theorem push (h : s.Threaded) (c : Command) : (s.push c).Threaded where
  next_lt _ _ := (grows_push c s).next_lt h
  next_iff_prev := (grows_push c s).next_iff_prev h
  first_gt := by
    intro l f hf
    rw [size_push]
    rcases first?_push_eq_some hf with hf | ⟨hl, rfl⟩
    · exact ⟨(h.first_gt hf).1, Nat.lt_succ_of_lt (h.first_gt hf).2⟩
    · exact ⟨h.innermost_lt hl, Nat.lt_succ_self _⟩
  parent_lt _ _ := (grows_push c s).parent_lt h
  open_lt := by
    intro l hl
    rw [size_push]
    exact Nat.lt_succ_of_lt (h.open_lt hl)
  open_next _ := (grows_push c s).open_next h
  open_sorted := h.open_sorted
  tail_lt := by
    rintro t ⟨⟩
    rw [size_push]
    exact Nat.lt_succ_self _
  tail_next := by
    rintro t ⟨⟩
    exact (grows_push c s).next?_size
  tail_not_open := by
    rintro t ⟨⟩ hm
    exact Nat.lt_irrefl _ (h.open_lt hm)

theorem beginLoop (h : s.Threaded) : s.beginLoop.Threaded where
  next_lt _ _ := (grows_beginLoop s).next_lt h
  next_iff_prev := (grows_beginLoop s).next_iff_prev h
  first_gt := by
    intro l f hf
    rw [first?_beginLoop] at hf
    rw [size_beginLoop]
    exact ⟨(h.first_gt hf).1, Nat.lt_succ_of_lt (h.first_gt hf).2⟩
  parent_lt _ _ := (grows_beginLoop s).parent_lt h
  open_lt := by
    intro l hl
    rw [size_beginLoop]
    rcases List.mem_cons.mp hl with rfl | hl
    · exact Nat.lt_succ_self _
    · exact Nat.lt_succ_of_lt (h.open_lt hl)
  open_next := by
    intro l hl
    rcases List.mem_cons.mp hl with rfl | hl
    · exact (grows_beginLoop s).next?_size
    · exact (grows_beginLoop s).open_next h hl
  open_sorted := List.pairwise_cons.mpr ⟨fun _ hl => h.open_lt hl, h.open_sorted⟩
  tail_lt := by simp
  tail_next := by simp
  tail_not_open := by simp

/-- The loop that is sealed was open, so its chain ends with it and it is no longer open. -/
theorem sealLoop (h : s.Threaded) : s.sealLoop.state.Threaded := by
  obtain ⟨nodes, pending, last, openLoops, tail, scanned, skipped⟩ := s
  cases openLoops with
  | nil => exact h.of_sameShape ⟨rfl, rfl, rfl⟩
  | cons loop outer =>
      have hsorted := List.pairwise_cons.mp h.open_sorted
      suffices hs : Threaded ⟨nodes, pending, last, outer, some loop, scanned, skipped⟩ by
        simp only [Skeleton.sealLoop]
        split <;> exact hs.of_sameShape ⟨rfl, rfl, rfl⟩
      refine ⟨h.1, h.2, h.3, h.4, ?_, ?_, hsorted.2, ?_, ?_, ?_⟩
      · exact fun l hl => h.open_lt (List.mem_cons_of_mem _ hl)
      · exact fun l hl => h.open_next (List.mem_cons_of_mem _ hl)
      · rintro t ⟨⟩
        exact h.open_lt List.mem_cons_self
      · rintro t ⟨⟩
        exact h.open_next List.mem_cons_self
      · rintro t ⟨⟩ hm
        exact Nat.lt_irrefl _ (hsorted.1 _ hm)

end Threaded

/-! ## The loop around a node -/

/-- Neighbours lie in the same loop, an open loop lies in the next one outside, and the tail
lies in the innermost. -/
structure Layered (s : Skeleton) : Prop extends Threaded s where
  next_parent : ∀ ⦃a b⦄, s.next? a = some b → s.parent? a = s.parent? b
  open_nested : ∀ ⦃l outer⦄, l :: outer <:+ s.openLoops → s.parent? l = outer.head?
  tail_parent : ∀ ⦃t⦄, s.tail = some t → s.parent? t = s.innermost

namespace Layered

theorem empty : Layered {} := by
  refine ⟨.empty, ?_, ?_, ?_⟩ <;> simp [next?]

theorem of_sameShape (h : t.Layered) (hs : s.SameShape t) : s.Layered where
  toThreaded := h.toThreaded.of_sameShape hs
  next_parent := by
    simp only [hs.next?, hs.parent?]
    exact h.next_parent
  open_nested := by
    simp only [hs.openLoops, hs.parent?]
    exact h.open_nested
  tail_parent := by
    simp only [hs.tail, hs.parent?, hs.innermost]
    exact h.tail_parent

/-- A new node lies where the tail lies, inside the innermost open loop. -/
theorem grows_next_parent (h : s.Layered) (g : s.Grows t) (hn : t.next? a = some b) :
    t.parent? a = t.parent? b := by
  rw [g.next?] at hn
  split at hn
  · rename_i hta
    obtain rfl := Option.some.inj hn
    rw [g.parent?, if_neg (Nat.ne_of_lt hta.2), g.parent?, if_pos rfl]
    exact h.tail_parent hta.1
  · have ha := lt_size_of_next? hn
    have hb := h.next_lt_size hn
    rw [g.parent?, if_neg (Nat.ne_of_lt ha), g.parent?, if_neg (Nat.ne_of_lt hb)]
    exact h.next_parent hn

theorem grows_open_nested (h : s.Layered) (g : s.Grows t) {outer : List Nat}
    (hl : l :: outer <:+ s.openLoops) : t.parent? l = outer.head? := by
  have hlt := h.open_lt (hl.subset List.mem_cons_self)
  rw [g.parent?, if_neg (Nat.ne_of_lt hlt)]
  exact h.open_nested hl

theorem push (h : s.Layered) (c : Command) : (s.push c).Layered where
  toThreaded := h.toThreaded.push c
  next_parent _ _ := h.grows_next_parent (grows_push c s)
  open_nested _ _ := h.grows_open_nested (grows_push c s)
  tail_parent := by
    rintro t ⟨⟩
    rw [parent?_push, innermost_push]
    exact if_pos rfl

theorem beginLoop (h : s.Layered) : s.beginLoop.Layered where
  toThreaded := h.toThreaded.beginLoop
  next_parent _ _ := h.grows_next_parent (grows_beginLoop s)
  open_nested := by
    intro l outer hl
    rw [openLoops_beginLoop, List.suffix_cons_iff] at hl
    rcases hl with hl | hl
    · obtain ⟨rfl, rfl⟩ := List.cons.inj hl
      rw [parent?_beginLoop, if_pos rfl]
      rfl
    · exact h.grows_open_nested (grows_beginLoop s) hl
  tail_parent := by simp

theorem sealLoop (h : s.Layered) : s.sealLoop.state.Layered where
  toThreaded := h.toThreaded.sealLoop
  next_parent := by
    simp only [next?_sealLoop, parent?_sealLoop]
    exact h.next_parent
  open_nested := by
    intro l outer hl
    rw [openLoops_sealLoop] at hl
    rw [parent?_sealLoop]
    exact h.open_nested (hl.trans (List.tail_suffix s.openLoops))
  tail_parent := by
    intro t ht
    rw [tail_sealLoop] at ht
    rw [parent?_sealLoop, innermost, openLoops_sealLoop]
    split at ht
    · rename_i hopen
      rw [h.tail_parent ht, innermost, hopen, List.tail_nil]
    · obtain ⟨outer, hopen⟩ := List.head?_eq_some_iff.mp ht
      rw [hopen, List.tail_cons]
      exact h.open_nested (hopen ▸ List.suffix_refl _)

end Layered

end TapeScript.Skeleton
