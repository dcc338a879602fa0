import TapeScript.Proofs.Skeleton.Rows

/-! # What lies inside a loop

Under any order of recording, a loop may have no body, or a first node that does not begin the
chain of its body. Still, whatever lies inside a loop comes before what follows the loop. So a
listing, which shows the body of a loop before what follows it, never goes back. -/

namespace TapeScript.Skeleton

variable {s t : Skeleton} {a b id l f p : Nat}

/-- The nodes from `a` up to its successor `b` hold no open loop, and whatever lies inside one
of them comes before `b`. -/
structure Contained (s : Skeleton) : Prop extends Layered s where
  first_parent : ∀ ⦃l f⦄, s.first? l = some f → s.parent? f = some l
  inside_lt : ∀ ⦃a b p id⦄, s.next? a = some b → a ≤ p → p < b → s.parent? id = some p → id < b
  open_outside : ∀ ⦃a b l⦄, s.next? a = some b → l ∈ s.openLoops → l < a ∨ b ≤ l
  open_lt_tail : ∀ ⦃t l⦄, s.tail = some t → l ∈ s.openLoops → l < t

namespace Contained

theorem empty : Contained {} := by
  refine ⟨.empty, ?_, ?_, ?_, ?_⟩ <;> simp [next?, first?, entry?]

theorem of_sameShape (h : t.Contained) (hs : s.SameShape t) : s.Contained where
  toLayered := h.toLayered.of_sameShape hs
  first_parent := by
    simp only [hs.first?, hs.parent?]
    exact h.first_parent
  inside_lt := by
    simp only [hs.next?, hs.parent?]
    exact h.inside_lt
  open_outside := by
    simp only [hs.next?, hs.openLoops]
    exact h.open_outside
  open_lt_tail := by
    simp only [hs.tail, hs.openLoops]
    exact h.open_lt_tail

/-! ## Every way of recording -/

/-- All open loops come before the tail, so they do when a node is put behind it. -/
theorem grows_open_outside (h : s.Contained) (g : s.Grows t) (hn : t.next? a = some b)
    (hl : l ∈ s.openLoops) : l < a ∨ b ≤ l := by
  rw [g.next?] at hn
  split at hn
  · rename_i hta
    exact .inl (h.open_lt_tail hta.1 hl)
  · exact h.open_outside hn hl

/-- The new node lies inside an open loop, and so not inside what it is put behind. -/
theorem grows_inside_lt (h : s.Contained) (g : s.Grows t) (hn : t.next? a = some b)
    (ha : a ≤ p) (hb : p < b) (hp : t.parent? id = some p) : id < b := by
  have hopen : p ∉ s.openLoops := by
    intro hmem
    have hout := h.grows_open_outside g hn hmem
    omega
  rw [g.parent?] at hp
  split at hp
  · exact absurd (List.mem_of_head? hp) hopen
  · rw [g.next?] at hn
    split at hn
    · obtain rfl := Option.some.inj hn
      exact lt_size_of_parent? hp
    · exact h.inside_lt hn ha hb hp

theorem push (h : s.Contained) (c : Command) : (s.push c).Contained where
  toLayered := h.toLayered.push c
  first_parent := by
    intro l f hf
    rw [parent?_push]
    rcases first?_push_eq_some hf with hf | ⟨hl, rfl⟩
    · rw [if_neg (Nat.ne_of_lt (h.first_gt hf).2)]
      exact h.first_parent hf
    · rw [if_pos rfl, hl]
  inside_lt _ _ _ _ := h.grows_inside_lt (grows_push c s)
  open_outside _ _ _ := h.grows_open_outside (grows_push c s)
  open_lt_tail := by
    rintro t l ⟨⟩ hl
    exact h.open_lt hl

theorem beginLoop (h : s.Contained) : s.beginLoop.Contained where
  toLayered := h.toLayered.beginLoop
  first_parent := by
    intro l f hf
    rw [first?_beginLoop] at hf
    rw [parent?_beginLoop, if_neg (Nat.ne_of_lt (h.first_gt hf).2)]
    exact h.first_parent hf
  inside_lt _ _ _ _ := h.grows_inside_lt (grows_beginLoop s)
  open_outside := by
    intro a b l hn hl
    rcases List.mem_cons.mp hl with rfl | hl
    · have hlt := h.toThreaded.beginLoop.next_lt_size hn
      rw [size_beginLoop] at hlt
      exact .inr (Nat.le_of_lt_succ hlt)
    · exact h.grows_open_outside (grows_beginLoop s) hn hl
  open_lt_tail := by simp

/-- The sealed loop was the innermost, so the loops that stay open come before it. -/
theorem sealLoop (h : s.Contained) : s.sealLoop.state.Contained where
  toLayered := h.toLayered.sealLoop
  first_parent := by
    simp only [first?_sealLoop, parent?_sealLoop]
    exact h.first_parent
  inside_lt := by
    simp only [next?_sealLoop, parent?_sealLoop]
    exact h.inside_lt
  open_outside := by
    intro a b l hn hl
    rw [next?_sealLoop] at hn
    rw [openLoops_sealLoop] at hl
    exact h.open_outside hn (List.mem_of_mem_tail hl)
  open_lt_tail := by
    intro t l ht hl
    rw [tail_sealLoop] at ht
    rw [openLoops_sealLoop] at hl
    split at ht
    · rename_i hopen
      rw [hopen] at hl
      cases hl
    · obtain ⟨outer, hopen⟩ := List.head?_eq_some_iff.mp ht
      have hsorted := h.open_sorted
      rw [hopen] at hl hsorted
      exact List.rel_of_pairwise_cons hsorted hl

end Contained

/-! ## The order of the rows -/

/-- Links lead forward, so what holds of a node if it holds of its first node and its successor
holds of every node. -/
theorem Threaded.link_induction {P : Nat → Nat → Prop} (h : s.Threaded)
    (step : ∀ depth id, (∀ f, s.first? id = some f → P (depth + 1) f) →
      (∀ b, s.next? id = some b → P depth b) → P depth id) (depth id : Nat) : P depth id := by
  induction hn : s.size - id using Nat.strongRecOn generalizing depth id with
  | ind n ih =>
      refine step depth id (fun f hf => ?_) fun b hb => ?_
      · have hlt := h.first_gt hf
        exact ih (s.size - f) (by omega) (depth + 1) f rfl
      · have hlt := h.next_lt hb
        have hsize := h.next_lt_size hb
        exact ih (s.size - b) (by omega) depth b rfl

theorem mem_rowsAt {start : Option Nat} {depth : Nat} {r : Listing.Row} :
    r ∈ s.rowsAt depth start ↔ ∃ id, start = some id ∧ r ∈ s.rowsFrom depth id := by
  cases start <;> simp [rowsAt]

/-- The row of a node stands before those of its body, and these before those behind it. -/
theorem Threaded.rowsFrom_eq (h : s.Threaded) (depth id : Nat) :
    s.rowsFrom depth id = [] ∨ ∃ label, s.rowsFrom depth id = ⟨depth, id, label⟩ ::
      (s.rowsAt (depth + 1) (s.first? id) ++ s.rowsAt depth (s.next? id)) := by
  cases he : s.entry? id with
  | none =>
      have hid : ¬id < s.nodes.size := by
        intro hid
        rw [entry?_eq_getElem hid] at he
        cases he
      rw [rowsFrom, dif_neg hid]
      exact .inl rfl
  | some e =>
      rw [rowsFrom_of_entry h he, first?_of_entry he]
      exact .inr ⟨e.label, rfl⟩

theorem Threaded.mem_rowsFrom (h : s.Threaded) {depth : Nat} {r : Listing.Row}
    (hr : r ∈ s.rowsFrom depth id) :
    r.id = id ∨ (∃ f, s.first? id = some f ∧ r ∈ s.rowsFrom (depth + 1) f) ∨
      ∃ b, s.next? id = some b ∧ r ∈ s.rowsFrom depth b := by
  rcases h.rowsFrom_eq depth id with heq | ⟨label, heq⟩
  · rw [heq] at hr
    cases hr
  · rw [heq, List.mem_cons, List.mem_append, mem_rowsAt, mem_rowsAt] at hr
    exact hr.imp_left fun h => congrArg Listing.Row.id h

theorem Threaded.le_of_mem_rowsFrom (h : s.Threaded) (depth id : Nat) :
    ∀ r ∈ s.rowsFrom depth id, id ≤ r.id := by
  induction depth, id using h.link_induction with
  | step depth id hfirst hnext =>
      intro r hr
      rcases h.mem_rowsFrom hr with heq | ⟨f, hf, hr⟩ | ⟨b, hb, hr⟩
      · exact Nat.le_of_eq heq.symm
      · exact Nat.le_trans (Nat.le_of_lt (h.first_gt hf).1) (hfirst f hf r hr)
      · exact Nat.le_trans (Nat.le_of_lt (h.next_lt hb)) (hnext b hb r hr)

namespace Contained

/-- The rows from a node inside what `a` stands for come before the successor of `a`. -/
theorem lt_of_mem_rowsFrom (h : s.Contained) (hn : s.next? a = some b) (depth id : Nat) :
    ∀ p, a ≤ p → p < b → s.parent? id = some p → ∀ r ∈ s.rowsFrom depth id, r.id < b := by
  induction depth, id using h.link_induction with
  | step depth id hfirst hnext =>
      intro p ha hb hp r hr
      have hid := h.inside_lt hn ha hb hp
      rcases h.mem_rowsFrom hr with heq | ⟨f, hf, hr⟩ | ⟨b', hb', hr⟩
      · rwa [heq]
      · have hlt := h.parent_lt hp
        exact hfirst f hf id (by omega) hid (h.first_parent hf) r hr
      · rw [h.next_parent hb'] at hp
        exact hnext b' hb' p ha hb hp r hr

theorem rowsFrom_sorted (h : s.Contained) (depth id : Nat) :
    (s.rowsFrom depth id).Pairwise fun r r' => r.id < r'.id := by
  induction depth, id using h.link_induction with
  | step depth id hfirst hnext =>
      rcases h.rowsFrom_eq depth id with heq | ⟨label, heq⟩
      · rw [heq]
        exact .nil
      rw [heq, List.pairwise_cons, List.pairwise_append]
      refine ⟨fun r hr => ?_, ?_, ?_, fun r hr r' hr' => ?_⟩
      · rw [List.mem_append, mem_rowsAt, mem_rowsAt] at hr
        rcases hr with ⟨f, hf, hr⟩ | ⟨b, hb, hr⟩
        · exact Nat.lt_of_lt_of_le (h.first_gt hf).1 (h.le_of_mem_rowsFrom _ f r hr)
        · exact Nat.lt_of_lt_of_le (h.next_lt hb) (h.le_of_mem_rowsFrom _ b r hr)
      · cases hf : s.first? id with
        | none => exact .nil
        | some f => exact hfirst f hf
      · cases hb : s.next? id with
        | none => exact .nil
        | some b => exact hnext b hb
      · -- the body lies inside the loop, and the loop's successor comes behind all of it
        obtain ⟨f, hf, hr⟩ := mem_rowsAt.mp hr
        obtain ⟨b, hb, hr'⟩ := mem_rowsAt.mp hr'
        have hlt := h.lt_of_mem_rowsFrom hb (depth + 1) f id (Nat.le_refl id) (h.next_lt hb)
          (h.first_parent hf) r hr
        exact Nat.lt_of_lt_of_le hlt (h.le_of_mem_rowsFrom _ b r' hr')

/-- Every node has one row at most, and the rows stand in the order of the nodes. -/
theorem rows_sorted (h : s.Contained) : (s.rows.map (·.id)).Pairwise (· < ·) :=
  List.pairwise_map.mpr (h.rowsFrom_sorted 0 0)

end Contained

end TapeScript.Skeleton
