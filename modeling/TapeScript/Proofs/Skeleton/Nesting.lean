import TapeScript.Proofs.Skeleton.Layout

/-! # How far execution can go back

What is recorded while a loop is open lies inside that loop. So executing a command leads to
no earlier node than its own or, if the command ends a loop, than the first of its body. -/

namespace TapeScript.Skeleton

variable {s t : Skeleton} {id l f : Nat} {c : Command}

/-- Later nodes lie inside the open loops, and an opening command stands behind its loop. -/
structure Nested (s : Skeleton) : Prop where
  inside : ∀ ⦃l id⦄, l ∈ s.openLoops → l < id → id < s.size →
    ∃ l', s.parent? id = some l' ∧ l ≤ l'
  opener : ∀ ⦃id c⦄, s.command? id = some c → c.kind = .loopOpen →
    ∃ l, id = l + 1 ∧ s.parent? id = some l

theorem Nested.empty : Nested {} := by
  constructor <;> simp [command?, entry?]

theorem Nested.of_sameShape (h : t.Nested) (hs : s.SameShape t) : s.Nested := by
  constructor
  · simp only [hs.openLoops, hs.size, hs.parent?]
    exact h.inside
  · simp only [hs.command?, hs.parent?]
    exact h.opener

/-! ## Recording -/

theorem Threaded.exists_innermost (h : s.Threaded) (hl : l ∈ s.openLoops) :
    ∃ top, s.innermost = some top ∧ l ≤ top := by
  have hsorted := h.open_sorted
  cases ho : s.openLoops with
  | nil => simp [ho] at hl
  | cons top outer =>
      rw [ho] at hl hsorted
      refine ⟨top, by rw [innermost, ho, List.head?_cons], ?_⟩
      rcases List.mem_cons.mp hl with rfl | hm
      · exact Nat.le_refl _
      · exact Nat.le_of_lt ((List.pairwise_cons.mp hsorted).1 l hm)

/-- A new node lies in the innermost open loop, and so in all of them. -/
theorem Nested.grows_inside (h : s.Nested) (ht : s.Threaded) (g : s.Grows t)
    (hl : l ∈ s.openLoops) (hid : l < id) (hlt : id < t.size) :
    ∃ l', t.parent? id = some l' ∧ l ≤ l' := by
  rw [g.parent?]
  by_cases hs : id = s.size
  · rw [if_pos hs]
    exact ht.exists_innermost hl
  · rw [if_neg hs]
    rw [g.size] at hlt
    exact h.inside hl hid (by omega)

namespace Nested

theorem push (h : s.Nested) (ht : s.Threaded)
    (hc : c.kind = .loopOpen → ∃ l, s.size = l + 1 ∧ s.innermost = some l) :
    (s.push c).Nested where
  inside _ _ hl := h.grows_inside ht (grows_push c s) hl
  opener := by
    intro id d hd hk
    rw [command?_push] at hd
    rw [parent?_push]
    by_cases hs : id = s.size
    · rw [if_pos hs] at hd ⊢
      obtain rfl := Option.some.inj hd
      exact hs ▸ hc hk
    · rw [if_neg hs] at hd ⊢
      exact h.opener hd hk

theorem beginLoop (h : s.Nested) (ht : s.Threaded) : s.beginLoop.Nested where
  inside := by
    intro l id hl hid hlt
    rcases List.mem_cons.mp hl with rfl | hl
    · have hsize : s.beginLoop.size = s.nodes.size + 1 := size_beginLoop s
      omega
    · exact h.grows_inside ht (grows_beginLoop s) hl hid hlt
  opener := by
    intro id d hd hk
    rw [command?_beginLoop] at hd
    rw [parent?_beginLoop, if_neg (Nat.ne_of_lt (lt_size_of_command? hd))]
    exact h.opener hd hk

theorem sealLoop (h : s.Nested) : s.sealLoop.state.Nested where
  inside := by
    intro l id hl hid hlt
    rw [openLoops_sealLoop] at hl
    rw [parent?_sealLoop]
    refine h.inside (List.mem_of_mem_tail hl) hid ?_
    rwa [size, nodes_sealLoop] at hlt
  opener := by
    intro id d hd hk
    rw [command?_sealLoop] at hd
    rw [parent?_sealLoop]
    exact h.opener hd hk

theorem record (h : s.Nested) (ht : s.Threaded) (c : Command) : (s.record c).state.Nested := by
  simp only [Skeleton.record]
  cases hk : c.kind with
  | simple action => exact h.push ht (by simp [hk])
  | loopOpen =>
      refine (h.beginLoop ht).push ht.beginLoop fun _ => ⟨s.size, ?_, ?_⟩
      · exact size_beginLoop s
      · exact innermost_beginLoop s
  | loopClose => exact (h.push ht (by simp [hk])).sealLoop

end Nested

/-! ## The part of a skeleton that execution stays in -/

/-- From `f` on, closing commands lead back to no earlier node, the loop that begins at `f`
leads nowhere, and an open loop holds nothing but its opening command. -/
structure Confines (s : Skeleton) (f : Nat) : Prop where
  closes : ∀ ⦃id c⦄, f ≤ id → s.command? id = some c → c.kind = .loopClose →
    ∃ l, f ≤ l + 1 ∧ s.parent? id = some l
  leaves : ∀ ⦃l⦄, l + 1 = f → s.IsLoop l → s.next? l = none
  opens : ∀ ⦃l⦄, f ≤ l + 1 → l ∈ s.openLoops → s.next? (l + 1) = none

theorem Confines.of_sameShape (h : t.Confines f) (hs : s.SameShape t) : s.Confines f := by
  constructor
  · simp only [hs.command?, hs.parent?]
    exact h.closes
  · simp only [hs.isLoop, hs.next?]
    exact h.leaves
  · simp only [hs.openLoops, hs.next?]
    exact h.opens

/-- The first node that the command leads to once it is recorded: its own, or the first of
the body that it ends. -/
def ground (s : Skeleton) (c : Command) : Nat :=
  match c.kind, s.innermost with
  | .loopClose, some l => l + 1
  | _, _ => s.size + lead c

theorem ground_of_ne_loopClose (hk : c.kind ≠ .loopClose) : s.ground c = s.size + lead c := by
  simp only [ground]
  split
  · contradiction
  · rfl

theorem ground_loopClose (hk : c.kind = .loopClose) (hl : s.innermost = some l) :
    s.ground c = l + 1 := by
  simp only [ground, hk, hl]

theorem ground_le (h : s.Threaded) (c : Command) : s.ground c ≤ s.size + lead c := by
  simp only [ground]
  split
  · rename_i l _ hl
    have := h.innermost_lt hl
    omega
  · exact Nat.le_refl _

/-- A command that was recorded last and ends no loop is all that it leads to. -/
theorem confines_last (h : s.Linked) (hd : s.command? f = some c) (hk : c.kind ≠ .loopClose)
    (hsize : s.size = f + 1) (htail : s.tail = some f)
    (hopen : c.kind = .loopOpen → ∃ l, f = l + 1 ∧ l ∈ s.openLoops) : s.Confines f where
  closes := by
    intro id d hid hd' hclose
    have hlt := lt_size_of_command? hd'
    obtain rfl : id = f := by omega
    obtain rfl := Option.some.inj (hd.symm.trans hd')
    exact absurd hclose hk
  leaves := by
    rintro l rfl hl
    obtain ⟨o, ho, hkind⟩ := (h.opensAt hl).command
    obtain rfl := Option.some.inj (hd.symm.trans ho)
    obtain ⟨l', hl', hm⟩ := hopen hkind
    obtain rfl : l = l' := by omega
    exact h.open_next hm
  opens := by
    intro l hl hm
    have hlt := h.open_lt hm
    obtain rfl | rfl : f = l + 1 ∨ f = l := by omega
    · exact h.tail_next htail
    · exact absurd hm (h.tail_not_open htail)

/-- A command that ends a loop leads to its body, which holds all that was recorded since. -/
theorem confines_closed (h : s.Chained) (hn : s.Nested) (hl : s.innermost = some l)
    (hk : c.kind = .loopClose) : (s.push c).sealLoop.state.Confines (l + 1) where
  closes := by
    have hpush := hn.push h.toThreaded (c := c) (by simp [hk])
    have hmem : l ∈ (s.push c).openLoops := List.mem_of_head? hl
    intro id d hid hd _
    rw [command?_sealLoop] at hd
    rw [parent?_sealLoop]
    obtain ⟨l', hl', hle⟩ := hpush.inside hmem hid (lt_size_of_command? hd)
    exact ⟨l', Nat.succ_le_succ hle, hl'⟩
  leaves := by
    intro l' hl' _
    obtain rfl := Nat.succ.inj hl'
    have hne : s.openLoops ≠ [] := by
      intro ho
      simp [innermost, ho] at hl
    refine ((h.push c).sealLoop).tail_next ?_
    rw [tail_sealLoop, openLoops_push, if_neg hne, innermost_push, hl]
  opens := by
    intro l' hle hm
    have hsorted := h.open_sorted
    rw [openLoops_sealLoop, openLoops_push] at hm
    cases ho : s.openLoops with
    | nil => simp [ho] at hm
    | cons top outer =>
        rw [innermost, ho, List.head?_cons, Option.some.injEq] at hl
        rw [ho] at hm hsorted
        have hlt := (List.pairwise_cons.mp hsorted).1 l' hm
        omega

/-- Whatever is recorded in front of it, a command leads to nothing before its ground. -/
theorem confines_record (h : s.Linked) (hn : s.Nested)
    (hc : c.kind = .loopClose → s.openLoops ≠ []) :
    (s.record c).state.Confines (s.ground c) := by
  have hlinked := h.record c
  cases hk : c.kind with
  | simple action =>
      have hne : c.kind ≠ .loopClose := by simp [hk]
      have hground : s.ground c = s.size := by
        rw [ground_of_ne_loopClose hne]
        simp only [lead, hk, Nat.add_zero]
      rw [hground]
      simp only [record, hk, Outcome.state_ok] at hlinked ⊢
      refine confines_last hlinked (c := c) ?_ hne (size_push c s) (tail_push c s) (by simp [hk])
      rw [command?_push, if_pos rfl]
  | loopOpen =>
      have hne : c.kind ≠ .loopClose := by simp [hk]
      have hground : s.ground c = s.size + 1 := by
        rw [ground_of_ne_loopClose hne]
        simp only [lead, hk]
      rw [hground]
      simp only [record, hk, Outcome.state_ok] at hlinked ⊢
      refine confines_last hlinked (c := c) ?_ hne ?_ ?_ fun _ => ⟨s.size, rfl, ?_⟩
      · rw [Chained.command?_opened, if_pos rfl]
      · rw [size_push, size_beginLoop]
      · rw [tail_push, size_beginLoop]
      · exact List.mem_cons_self
  | loopClose =>
      obtain ⟨l, hl⟩ : ∃ l, s.innermost = some l := by
        cases ho : s.openLoops with
        | nil => exact absurd ho (hc hk)
        | cons l outer => exact ⟨l, by rw [innermost, ho, List.head?_cons]⟩
      rw [ground_loopClose hk hl]
      simp only [record, hk]
      exact confines_closed h.toChained hn hl hk

end TapeScript.Skeleton
