import TapeScript.Proofs.Skeleton.Chains
import TapeScript.Proofs.Skeleton.Cursors
import Mathlib.Logic.Relation

/-! # The global structure of a skeleton

The chains of a skeleton are its loop bodies and the script itself: two nodes lie in one
chain exactly if they lie in the same loop. -/

namespace TapeScript.Skeleton

variable {s : Skeleton} {a b id l : Nat}

/-- Successors lead from one node to the other. -/
def Leads (s : Skeleton) : Nat → Nat → Prop :=
  Relation.ReflTransGen fun a b => s.next? a = some b

def SameChain (s : Skeleton) (a b : Nat) : Prop := s.Leads a b ∨ s.Leads b a

/-- The places where a skeleton keeps the number of a node. -/
inductive Stores (s : Skeleton) (id : Nat) : Prop where
  | next (a : Nat) (h : s.next? a = some id)
  | prev (a : Nat) (h : s.prev? a = some id)
  | first (l : Nat) (h : s.first? l = some id)
  | parent (a : Nat) (h : s.parent? a = some id)
  | pending (h : s.pending = some id)
  | last (h : s.last = some id)
  | openLoop (h : id ∈ s.openLoops)
  | tail (h : s.tail = some id)
  | scanned (h : s.scanned = some id)

/-- The body of a closed loop ends with a closing command, and holds no other. -/
structure EndsWithClose (s : Skeleton) (l id : Nat) : Prop where
  parent : s.parent? id = some l
  next : s.next? id = none
  leads : ∀ a, s.parent? a = some l → s.Leads a id
  close_iff : ∀ a, s.parent? a = some l →
    ((∃ c, s.command? a = some c ∧ c.kind = .loopClose) ↔ a = id)

/-- Open loops stand innermost first, so their numbers fall. -/
structure Consistent (s : Skeleton) : Prop where
  stored_lt : ∀ id, s.Stores id → id < s.size
  next_iff_prev : ∀ a b, s.next? a = some b ↔ s.prev? b = some a
  next_lt : ∀ a b, s.next? a = some b → a < b
  sameChain_iff : ∀ a b, a < s.size → b < s.size →
    (s.SameChain a b ↔ s.parent? a = s.parent? b)
  opensAt : ∀ l, s.IsLoop l → s.OpensAt l
  chainStart_eq : ∀ id, id < s.size → some (s.chainStart id) =
    match s.parent? id with
    | some l => s.first? l
    | none => some 0
  closed : ∀ l, s.IsLoop l → l ∉ s.openLoops → ∃ id, s.EndsWithClose l id
  open_sorted : s.openLoops.Pairwise (· > ·)
  open_nested : ∀ l outer, l :: outer <:+ s.openLoops → s.IsLoop l ∧ s.parent? l = outer.head?
  open_next : ∀ l ∈ s.openLoops, s.next? l = none
  tail_next : ∀ t, s.tail = some t → s.next? t = none

theorem Leads.eq_of_next_eq_none (h : s.Leads a b) (ha : s.next? a = none) : a = b := by
  induction h using Relation.ReflTransGen.head_induction_on with
  | refl => rfl
  | head hn _ _ =>
      rw [ha] at hn
      cases hn

namespace Chained

theorem leads_parent (h : s.Chained) (hl : s.Leads a b) : s.parent? a = s.parent? b := by
  induction hl with
  | refl => rfl
  | tail _ hn ih => exact ih.trans (h.next_parent hn)

theorem leads_bodyStart (h : s.Chained) (hid : id < s.size) :
    s.Leads (bodyStart (s.parent? id)) id := by
  induction id using Nat.strongRecOn with
  | ind id ih =>
      cases hp : s.prev? id with
      | none =>
          rw [← h.eq_bodyStart hid hp]
          exact .refl
      | some p =>
          have hn := (h.next_iff_prev p id).mpr hp
          have hlt := h.next_lt hn
          have hleads := ih p hlt (Nat.lt_trans hlt hid)
          rw [h.next_parent hn] at hleads
          exact hleads.tail hn

theorem sameChain_iff (h : s.Chained) (ha : a < s.size) (hb : b < s.size) :
    s.SameChain a b ↔ s.parent? a = s.parent? b := by
  constructor
  · rintro (hl | hl)
    · exact h.leads_parent hl
    · exact (h.leads_parent hl).symm
  · intro hp
    have hleads := h.leads_bodyStart ha
    rw [hp] at hleads
    have hunique : Relator.RightUnique fun a b => s.next? a = some b := by
      intro x y z hy hz
      exact Option.some.inj (hy.symm.trans hz)
    exact hleads.total_of_right_unique hunique (h.leads_bodyStart hb)

end Chained

theorem Linked.endsWithClose (h : s.Linked) {c : Command} (hc : s.command? id = some c)
    (hk : c.kind = .loopClose) (hp : s.parent? id = some l) : s.EndsWithClose l id := by
  have hlast := (h.close_last hc hk hp).1
  refine ⟨hp, hlast, ?_, ?_⟩
  · intro a ha
    have hchain := (h.sameChain_iff (lt_size_of_parent? ha) (lt_size_of_parent? hp)).mpr
      (ha.trans hp.symm)
    rcases hchain with hl | hl
    · exact hl
    · rw [hl.eq_of_next_eq_none hlast]
      exact .refl
  · intro a ha
    constructor
    · rintro ⟨e, he, hke⟩
      have hchain := (h.sameChain_iff (lt_size_of_parent? ha) (lt_size_of_parent? hp)).mpr
        (ha.trans hp.symm)
      rcases hchain with hl | hl
      · exact hl.eq_of_next_eq_none (h.close_last he hke ha).1
      · exact (hl.eq_of_next_eq_none hlast).symm
    · rintro rfl
      exact ⟨c, hc, hk⟩

theorem Threaded.stored_lt (h : s.Threaded) (hp : s.Placed) (hs : s.Stores id) :
    id < s.size := by
  cases hs with
  | next a hn => exact h.next_lt_size hn
  | prev a hn => exact lt_size_of_next? ((h.next_iff_prev _ _).mpr hn)
  | first l hf => exact (h.first_gt hf).2
  | parent a hl => exact Nat.lt_trans (h.parent_lt hl) (lt_size_of_parent? hl)
  | pending hid => exact hp.pending_lt hid
  | last hid => exact hp.last_lt hid
  | openLoop hid => exact h.open_lt hid
  | tail hid => exact h.tail_lt hid
  | scanned hid => exact hp.scanned_lt hid

theorem Linked.consistent (h : s.Linked) (hp : s.Placed) : s.Consistent where
  stored_lt _ := h.stored_lt hp
  next_iff_prev := h.next_iff_prev
  next_lt _ _ hn := h.next_lt hn
  sameChain_iff _ _ := h.sameChain_iff
  opensAt _ hl := h.opensAt hl
  chainStart_eq := by
    intro id hid
    rw [h.chainStart_eq hid]
    cases hl : s.parent? id with
    | none => rfl
    | some l => exact (h.opensAt (h.parent_isLoop hl)).first.symm
  closed := by
    intro l hl hopen
    obtain ⟨id, c, hparent, hc, hk⟩ := h.closed hl hopen
    exact ⟨id, h.endsWithClose hc hk hparent⟩
  open_sorted := h.open_sorted
  open_nested _ _ hl := ⟨h.open_isLoop (hl.subset List.mem_cons_self), h.open_nested hl⟩
  open_next _ hl := h.open_next hl
  tail_next _ ht := h.tail_next ht

end TapeScript.Skeleton
