import TapeScript.Proofs.Skeleton.Threads

/-! # Cursors stay on recorded nodes -/

namespace TapeScript.Skeleton

variable {s t : Skeleton} {a b id l : Nat}

/-- Every cursor of the execution stands on a recorded node. -/
structure Placed (s : Skeleton) : Prop where
  pending_lt : ∀ ⦃id⦄, s.pending = some id → id < s.size
  last_lt : ∀ ⦃id⦄, s.last = some id → id < s.size
  scanned_lt : ∀ ⦃id⦄, s.scanned = some id → id < s.size

theorem chainStart_le (s : Skeleton) (id : Nat) : s.chainStart id ≤ id := by
  induction id using Nat.strongRecOn with
  | ind id ih =>
      rw [chainStart]
      split
      · split
        · rename_i hlt
          exact Nat.le_trans (ih _ hlt) (Nat.le_of_lt hlt)
        · exact Nat.le_refl _
      · exact Nat.le_refl _

theorem Threaded.target?_lt (h : s.Threaded) (ht : s.target? a = some b) : b < s.size := by
  simp only [target?] at ht
  split at ht
  · rename_i he
    exact Option.some.inj ht ▸ lt_size_of_isSome entry?_eq_none he
  · rename_i first parent he
    have hf : s.first? a = some b := by simp only [first?, he, ht]
    exact (h.first_gt hf).2
  · cases ht

theorem Threaded.ownLoop?_lt (h : s.Threaded) (hl : s.ownLoop? id = some l) : l < s.size := by
  simp only [ownLoop?] at hl
  split at hl
  · rename_i he
    have hp : s.parent? id = some l := by simp only [parent?, he, hl]
    exact Nat.lt_trans (h.parent_lt hp) (lt_size_of_parent? hp)
  · rename_i he
    exact Option.some.inj hl ▸ lt_size_of_isSome entry?_eq_none he
  · cases hl

namespace Placed

theorem empty : Placed {} := by constructor <;> simp

/-- New nodes leave old cursors in place. -/
theorem of_le (h : s.Placed) (hsize : s.size ≤ t.size)
    (hpending : ∀ ⦃id⦄, t.pending = some id → id < t.size)
    (hlast : t.last = s.last) (hscanned : ∀ ⦃id⦄, t.scanned = some id → s.scanned = some id) :
    t.Placed where
  pending_lt := hpending
  last_lt _ hid := Nat.lt_of_lt_of_le (h.last_lt (hlast ▸ hid)) hsize
  scanned_lt _ hid := Nat.lt_of_lt_of_le (h.scanned_lt (hscanned hid)) hsize

theorem push (h : s.Placed) (c : Command) : (s.push c).Placed := by
  refine h.of_le ?_ ?_ rfl fun _ hid => hid
  · simp
  · rintro id ⟨⟩
    rw [size_push]
    exact Nat.lt_succ_self _

theorem beginLoop (h : s.Placed) : s.beginLoop.Placed := by
  refine h.of_le ?_ ?_ rfl fun _ hid => hid
  · simp
  · intro id hid
    rw [size_beginLoop]
    exact Nat.lt_succ_of_lt (h.pending_lt hid)

theorem sealLoop (h : s.Placed) : s.sealLoop.state.Placed := by
  obtain ⟨nodes, pending, last, openLoops, tail, scanned, skipped⟩ := s
  cases openLoops with
  | nil => exact ⟨h.1, h.2, h.3⟩
  | cons loop outer =>
      simp only [Skeleton.sealLoop]
      split
      · exact ⟨by simp, h.2, by simp⟩
      · exact ⟨h.1, h.2, h.3⟩

theorem record (h : s.Placed) (c : Command) : (s.record c).state.Placed := by
  simp only [Skeleton.record]
  cases c.kind with
  | simple action => exact h.push c
  | loopOpen => exact h.beginLoop.push c
  | loopClose => exact (h.push c).sealLoop

theorem take (h : s.Placed) (ht : s.Threaded) : s.take.2.Placed := by
  simp only [Skeleton.take]
  split
  · rename_i id hid
    obtain ⟨p, -, htarget⟩ := Option.bind_eq_some_iff.mp hid
    refine ⟨fun b hb => ht.next_lt_size hb, ?_, h.scanned_lt⟩
    rintro b ⟨⟩
    exact ht.target?_lt htarget
  · exact h

theorem leaveLoop (h : s.Placed) (ht : s.Threaded) : s.leaveLoop.Placed := by
  simp only [Skeleton.leaveLoop]
  split
  · exact h
  · split
    · exact h
    · rename_i loop hl
      refine ⟨fun b hb => ht.next_lt_size hb, h.last_lt, ?_⟩
      intro b hb
      dsimp only at hb
      split at hb
      · exact Option.some.inj hb ▸ ht.ownLoop?_lt hl
      · exact h.scanned_lt hb

theorem repeatLoop (h : s.Placed) : s.repeatLoop.Placed := by
  simp only [Skeleton.repeatLoop]
  split
  · exact h
  · rename_i id hid
    refine ⟨?_, h.last_lt, h.scanned_lt⟩
    rintro b ⟨⟩
    exact Nat.lt_of_le_of_lt (chainStart_le s id) (h.last_lt hid)

end Placed

end TapeScript.Skeleton
