import TapeScript.Proofs.Skeleton.Threads

/-! # Chains of a script

When every opening command follows its loop node and every closing command is followed by
the end of its loop, each loop body is exactly one chain. The facts below are local, about
one node and its neighbours, and hold after every recorded command. -/

namespace TapeScript.Skeleton

variable {s t : Skeleton} {a b id l : Nat}

/-- The first node inside a loop, or of the whole script. -/
def bodyStart : Option Nat → Nat
  | some l => l + 1
  | none => 0

/-- The node right behind the loop node opens the loop. -/
structure OpensAt (s : Skeleton) (l : Nat) : Prop where
  first : s.first? l = some (l + 1)
  prev : s.prev? (l + 1) = none
  parent : s.parent? (l + 1) = some l
  command : ∃ c, s.command? (l + 1) = some c ∧ c.kind = .loopOpen

/-- Neighbours lie in the same loop, and only the start of a body has none before it. -/
structure Chained (s : Skeleton) : Prop extends Threaded s where
  next_parent : ∀ ⦃a b⦄, s.next? a = some b → s.parent? a = s.parent? b
  eq_bodyStart : ∀ ⦃id⦄, id < s.size → s.prev? id = none → id = bodyStart (s.parent? id)
  parent_isLoop : ∀ ⦃id l⦄, s.parent? id = some l → s.IsLoop l
  opensAt : ∀ ⦃l⦄, s.IsLoop l → s.OpensAt l
  open_isLoop : ∀ ⦃l⦄, l ∈ s.openLoops → s.IsLoop l
  open_nested : ∀ ⦃l outer⦄, l :: outer <:+ s.openLoops → s.parent? l = outer.head?
  tail_parent : ∀ ⦃t⦄, s.tail = some t → s.parent? t = s.innermost
  size_eq_zero : s.tail = none → s.size = 0

/-- A loop is closed by the last node of its body, and by no other. -/
structure Linked (s : Skeleton) : Prop extends Chained s where
  closed : ∀ ⦃l⦄, s.IsLoop l → l ∉ s.openLoops →
    ∃ id c, s.parent? id = some l ∧ s.command? id = some c ∧ c.kind = .loopClose
  close_last : ∀ ⦃id l c⦄, s.command? id = some c → c.kind = .loopClose →
    s.parent? id = some l → s.next? id = none ∧ l ∉ s.openLoops

/-! ## Before anything is recorded -/

theorem Chained.empty : Chained {} := by
  refine ⟨.empty, ?_, ?_, ?_, ?_, ?_, ?_, ?_, ?_⟩ <;>
    simp [next?, parent?, entry?, IsLoop, size]

theorem Linked.empty : Linked {} := by
  refine ⟨.empty, ?_, ?_⟩ <;> simp [command?, entry?, IsLoop]

theorem Chained.of_sameShape (h : t.Chained) (hs : s.SameShape t) : s.Chained := by
  obtain ⟨nodes, _, _, openLoops, tail, _, _⟩ := s
  obtain ⟨nodes', _, _, openLoops', tail', _, _⟩ := t
  obtain ⟨rfl, rfl, rfl⟩ := hs
  exact ⟨h.1.of_sameShape ⟨rfl, rfl, rfl⟩, h.2, h.3, h.4,
    fun l hl => ⟨(h.5 hl).1, (h.5 hl).2, (h.5 hl).3, (h.5 hl).4⟩, h.6, h.7, h.8, h.9⟩

theorem Linked.of_sameShape (h : t.Linked) (hs : s.SameShape t) : s.Linked := by
  refine ⟨h.toChained.of_sameShape hs, ?_, ?_⟩
  · simp only [hs.isLoop, hs.openLoops, hs.parent?, hs.command?]
    exact h.closed
  · simp only [hs.command?, hs.parent?, hs.next?, hs.openLoops]
    exact h.close_last

/-- Going back from a node ends at the start of its body. -/
theorem Chained.chainStart_eq (h : s.Chained) (hid : id < s.size) :
    s.chainStart id = bodyStart (s.parent? id) := by
  induction id using Nat.strongRecOn with
  | ind id ih =>
      rw [chainStart]
      cases hp : s.prev? id with
      | none => exact h.eq_bodyStart hid hp
      | some p =>
          have hn := (h.next_iff_prev p id).mpr hp
          have hlt := h.next_lt hn
          simp only [if_pos hlt]
          rw [ih p hlt (Nat.lt_trans hlt hid), h.next_parent hn]

/-! ## A command is recorded -/

namespace Chained

theorem innermost_isLoop (h : s.Chained) (hl : s.innermost = some l) : s.IsLoop l :=
  h.open_isLoop (List.mem_of_head? hl)

theorem first?_push (h : s.Chained) (c : Command) (id : Nat) :
    (s.push c).first? id = s.first? id := by
  apply first?_push_of_ne
  by_cases hl : s.innermost = some id
  · right
    rw [(h.opensAt (h.innermost_isLoop hl)).first]
    exact Option.some_ne_none _
  · exact .inl hl

theorem layered (h : s.Chained) : s.Layered :=
  ⟨h.toThreaded, h.next_parent, h.open_nested, h.tail_parent⟩

/-- Without a tail nothing is recorded, and no loop is open. -/
theorem innermost_eq_none (h : s.Chained) (ht : s.tail = none) : s.innermost = none := by
  cases hl : s.innermost with
  | none => rfl
  | some l =>
      have := h.innermost_lt hl
      rw [h.size_eq_zero ht] at this
      exact absurd this (Nat.not_lt_zero l)

theorem grows_eq_bodyStart (h : s.Chained) (g : s.Grows t) (hid : id < t.size)
    (hp : t.prev? id = none) : id = bodyStart (t.parent? id) := by
  rw [g.prev?] at hp
  rw [g.parent?]
  by_cases hs : id = s.size
  · rw [if_pos hs] at hp ⊢
    rw [hs, h.size_eq_zero hp, h.innermost_eq_none hp]
    rfl
  · rw [if_neg hs] at hp ⊢
    rw [g.size] at hid
    exact h.eq_bodyStart (by omega) hp

theorem push (h : s.Chained) (c : Command) : (s.push c).Chained where
  toThreaded := h.toThreaded.push c
  next_parent := (h.layered.push c).next_parent
  eq_bodyStart _ := h.grows_eq_bodyStart (grows_push c s)
  parent_isLoop := by
    intro id l hp
    rw [parent?_push] at hp
    rw [isLoop_push]
    split at hp
    · exact h.innermost_isLoop hp
    · exact h.parent_isLoop hp
  opensAt := by
    intro l hl
    rw [isLoop_push] at hl
    have ho := h.opensAt hl
    obtain ⟨o, hcommand, hkind⟩ := ho.command
    have hne : l + 1 ≠ s.size := Nat.ne_of_lt (lt_size_of_command? hcommand)
    refine ⟨?_, ?_, ?_, o, ?_, hkind⟩
    · rw [h.first?_push, ho.first]
    · rw [prev?_push, if_neg hne, ho.prev]
    · rw [parent?_push, if_neg hne, ho.parent]
    · rw [command?_push, if_neg hne, hcommand]
  open_isLoop := by
    intro l hl
    exact (isLoop_push c s l).mpr (h.open_isLoop hl)
  open_nested := (h.layered.push c).open_nested
  tail_parent := (h.layered.push c).tail_parent
  size_eq_zero := by simp

/-- Closing the innermost loop leads back to the chain around it. -/
theorem sealLoop (h : s.Chained) : s.sealLoop.state.Chained := by
  have ht : s.sealLoop.state.Threaded := h.toThreaded.sealLoop
  obtain ⟨nodes, pending, last, openLoops, tail, scanned, skipped⟩ := s
  cases openLoops with
  | nil => exact h.of_sameShape ⟨rfl, rfl, rfl⟩
  | cons loop outer =>
      suffices hs : Threaded ⟨nodes, pending, last, outer, some loop, scanned, skipped⟩ →
          Chained ⟨nodes, pending, last, outer, some loop, scanned, skipped⟩ by
        simp only [Skeleton.sealLoop] at ht ⊢
        split at ht <;> rename_i hc
        · rw [if_pos hc]
          exact (hs (ht.of_sameShape ⟨rfl, rfl, rfl⟩)).of_sameShape ⟨rfl, rfl, rfl⟩
        · rw [if_neg hc]
          exact hs ht
      intro ht
      refine ⟨ht, h.2, h.3, h.4, ?_, ?_, ?_, ?_, ?_⟩
      · exact fun l hl => ⟨(h.5 hl).1, (h.5 hl).2, (h.5 hl).3, (h.5 hl).4⟩
      · exact fun l hl => h.6 (List.mem_cons_of_mem _ hl)
      · exact fun l outer' hl => h.7 (hl.trans (List.suffix_cons loop outer))
      · rintro t ⟨⟩
        exact h.7 (List.suffix_refl _)
      · simp

/-! A loop begins together with the command that opens it. -/

theorem next?_opened (c : Command) (id : Nat) :
    (s.beginLoop.push c).next? id = s.beginLoop.next? id := by
  rw [next?_push, if_neg (by simp)]

theorem prev?_opened (c : Command) (id : Nat) :
    (s.beginLoop.push c).prev? id = if id = s.size + 1 then none else s.beginLoop.prev? id := by
  rw [prev?_push, size_beginLoop, tail_beginLoop]

theorem parent?_opened (c : Command) (id : Nat) :
    (s.beginLoop.push c).parent? id =
      if id = s.size + 1 then some s.size else s.beginLoop.parent? id := by
  rw [parent?_push, size_beginLoop, innermost_beginLoop]

theorem command?_opened (c : Command) (id : Nat) :
    (s.beginLoop.push c).command? id = if id = s.size + 1 then some c else s.command? id := by
  rw [command?_push, size_beginLoop, command?_beginLoop]

theorem isLoop_opened (c : Command) (id : Nat) :
    (s.beginLoop.push c).IsLoop id ↔ id = s.size ∨ s.IsLoop id := by
  rw [isLoop_push, isLoop_beginLoop]

theorem first?_opened_size (c : Command) :
    (s.beginLoop.push c).first? s.size = some (s.size + 1) := by
  rw [first?_push_innermost c (innermost_beginLoop s) ((isLoop_beginLoop s _).mpr (.inl rfl)),
    size_beginLoop]
  rw [first?_beginLoop, first?_eq_none (Nat.le_refl _)]

theorem first?_opened_of_ne (c : Command) (hid : id ≠ s.size) :
    (s.beginLoop.push c).first? id = s.first? id := by
  have hi : s.beginLoop.innermost ≠ some id := by
    rw [innermost_beginLoop]
    exact fun h => hid (Option.some.inj h).symm
  rw [first?_push_of_ne c (.inl hi), first?_beginLoop]

/-- The new loop opens at its own command, and the others open where they did. -/
theorem opensAt_opened (h : s.Chained) {c : Command} (hc : c.kind = .loopOpen)
    (hl : (s.beginLoop.push c).IsLoop l) : (s.beginLoop.push c).OpensAt l := by
  rw [isLoop_opened] at hl
  rcases hl with rfl | hl
  · refine ⟨first?_opened_size c, ?_, ?_, c, ?_, hc⟩
    · rw [prev?_opened, if_pos rfl]
    · rw [parent?_opened, if_pos rfl]
    · rw [command?_opened, if_pos rfl]
  · have ho := h.opensAt hl
    obtain ⟨o, hcommand, hkind⟩ := ho.command
    have hlt := lt_size_of_command? hcommand
    refine ⟨?_, ?_, ?_, o, ?_, hkind⟩
    · rw [first?_opened_of_ne c (Nat.ne_of_lt hl.lt_size), ho.first]
    · rw [prev?_opened, if_neg (by omega), prev?_beginLoop, if_neg (by omega), ho.prev]
    · rw [parent?_opened, if_neg (by omega), parent?_beginLoop, if_neg (by omega), ho.parent]
    · rw [command?_opened, if_neg (by omega), hcommand]

theorem beginLoop_push (h : s.Chained) {c : Command} (hc : c.kind = .loopOpen) :
    (s.beginLoop.push c).Chained where
  toThreaded := h.toThreaded.beginLoop.push c
  next_parent := (h.layered.beginLoop.push c).next_parent
  eq_bodyStart := by
    intro id hid hp
    rw [prev?_opened] at hp
    rw [parent?_opened]
    by_cases hs : id = s.size + 1
    · rw [if_pos hs, hs]
      rfl
    · rw [if_neg hs] at hp ⊢
      rw [size_push, size_beginLoop] at hid
      exact h.grows_eq_bodyStart (grows_beginLoop s) (by rw [size_beginLoop]; omega) hp
  parent_isLoop := by
    intro id l hp
    rw [parent?_opened, parent?_beginLoop] at hp
    rw [isLoop_opened]
    split at hp
    · exact .inl (Option.some.inj hp).symm
    · split at hp
      · exact .inr (h.innermost_isLoop hp)
      · exact .inr (h.parent_isLoop hp)
  opensAt _ hl := h.opensAt_opened hc hl
  open_isLoop := by
    intro l hl
    rw [isLoop_opened]
    rcases List.mem_cons.mp hl with rfl | hl
    · exact .inl rfl
    · exact .inr (h.open_isLoop hl)
  open_nested := (h.layered.beginLoop.push c).open_nested
  tail_parent := (h.layered.beginLoop.push c).tail_parent
  size_eq_zero := by simp

end Chained

/-! ## Closing facts -/

namespace Linked

/-- The tail lies in the innermost open loop, which no recorded command has closed. -/
theorem next?_of_close (h : s.Linked) (g : s.Grows t) {c : Command}
    (hc : s.command? id = some c) (hk : c.kind = .loopClose) (hp : s.parent? id = some l) :
    t.next? id = none := by
  have hlast := h.close_last hc hk hp
  rw [g.next?_of_ne]
  · exact hlast.1
  · intro ht
    have hl := h.tail_parent ht
    rw [hp] at hl
    exact hlast.2 (List.mem_of_head? hl.symm)

theorem push (h : s.Linked) {c : Command} (hc : c.kind ≠ .loopClose) : (s.push c).Linked where
  toChained := h.toChained.push c
  closed := by
    intro l hl hopen
    rw [isLoop_push] at hl
    obtain ⟨id, e, hp, he, hk⟩ := h.closed hl hopen
    have hne := Nat.ne_of_lt (lt_size_of_command? he)
    exact ⟨id, e, by rw [parent?_push, if_neg hne, hp], by rw [command?_push, if_neg hne, he], hk⟩
  close_last := by
    intro id l e he hk hp
    rw [command?_push] at he
    rw [parent?_push] at hp
    split at he
    · exact absurd (Option.some.inj he ▸ hk) hc
    · rename_i hid
      rw [if_neg hid] at hp
      exact ⟨h.next?_of_close (grows_push c s) he hk hp, (h.close_last he hk hp).2⟩

theorem beginLoop_push (h : s.Linked) {c : Command} (hc : c.kind = .loopOpen) :
    (s.beginLoop.push c).Linked where
  toChained := h.toChained.beginLoop_push hc
  closed := by
    intro l hl hopen
    rw [Chained.isLoop_opened] at hl
    rw [openLoops_push, openLoops_beginLoop, List.mem_cons, not_or] at hopen
    obtain ⟨id, e, hp, he, hk⟩ := h.closed (hl.resolve_left hopen.1) hopen.2
    have hlt := lt_size_of_command? he
    refine ⟨id, e, ?_, ?_, hk⟩
    · rw [Chained.parent?_opened, if_neg (by omega), parent?_beginLoop, if_neg (by omega), hp]
    · rw [Chained.command?_opened, if_neg (by omega), he]
  close_last := by
    intro id l e he hk hp
    rw [Chained.command?_opened] at he
    split at he
    · obtain rfl := Option.some.inj he
      rw [hc] at hk
      cases hk
    · rename_i hid
      have hlt := lt_size_of_command? he
      rw [Chained.parent?_opened, if_neg hid, parent?_beginLoop, if_neg (by omega)] at hp
      have hlast := h.close_last he hk hp
      have hl := (h.parent_isLoop hp).lt_size
      refine ⟨?_, ?_⟩
      · rw [Chained.next?_opened]
        exact h.next?_of_close (grows_beginLoop s) he hk hp
      · rw [openLoops_push, openLoops_beginLoop, List.mem_cons, not_or]
        exact ⟨Nat.ne_of_lt hl, hlast.2⟩

/-- A close that is recorded inside a loop ends its body. -/
theorem push_sealLoop (h : s.Linked) {c : Command} (hc : c.kind = .loopClose) :
    (s.push c).sealLoop.state.Linked where
  toChained := (h.toChained.push c).sealLoop
  closed := by
    intro l hl hopen
    rw [isLoop_sealLoop, isLoop_push] at hl
    rw [openLoops_sealLoop, openLoops_push] at hopen
    by_cases hm : l ∈ s.openLoops
    · have hi : s.innermost = some l := by
        cases ho : s.openLoops with
        | nil => simp [ho] at hm
        | cons loop outer =>
            rw [ho, List.tail_cons] at hopen
            rw [ho, List.mem_cons] at hm
            rw [innermost, ho, hm.resolve_right hopen, List.head?_cons]
      refine ⟨s.size, c, ?_, ?_, hc⟩
      · rw [parent?_sealLoop, parent?_push, if_pos rfl, hi]
      · rw [command?_sealLoop, command?_push, if_pos rfl]
    · obtain ⟨id, e, hp, he, hk⟩ := h.closed hl hm
      have hne := Nat.ne_of_lt (lt_size_of_command? he)
      refine ⟨id, e, ?_, ?_, hk⟩
      · rw [parent?_sealLoop, parent?_push, if_neg hne, hp]
      · rw [command?_sealLoop, command?_push, if_neg hne, he]
  close_last := by
    intro id l e he hk hp
    rw [command?_sealLoop, command?_push] at he
    rw [parent?_sealLoop, parent?_push] at hp
    rw [next?_sealLoop, openLoops_sealLoop, openLoops_push]
    split at he
    · rename_i hid
      rw [if_pos hid] at hp
      refine ⟨hid ▸ (grows_push c s).next?_size, ?_⟩
      have hsorted := h.open_sorted
      cases ho : s.openLoops with
      | nil => simp
      | cons loop outer =>
          rw [innermost, ho, List.head?_cons, Option.some.injEq] at hp
          rw [ho, List.pairwise_cons] at hsorted
          intro hm
          exact Nat.lt_irrefl _ (hp ▸ hsorted.1 l hm)
    · rename_i hid
      rw [if_neg hid] at hp
      exact ⟨h.next?_of_close (grows_push c s) he hk hp,
        fun hm => (h.close_last he hk hp).2 (List.mem_of_mem_tail hm)⟩

/-- Every recorded command keeps the chains, also an unmatched close. -/
theorem record (h : s.Linked) (c : Command) : (s.record c).state.Linked := by
  simp only [Skeleton.record]
  cases hk : c.kind with
  | simple action => exact h.push (by simp [hk])
  | loopOpen => exact h.beginLoop_push hk
  | loopClose => exact h.push_sealLoop hk

end Linked

end TapeScript.Skeleton
