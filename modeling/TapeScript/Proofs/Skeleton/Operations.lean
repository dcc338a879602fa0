import TapeScript.Proofs.Skeleton.Bounds
import TapeScript.Proofs.Skeleton.Containment

/-! # A skeleton under any operations

An engine begins a loop only with a command that opens it, and leaves or repeats one only from
a command that was just executed. The operations may come in any other order as well: what a
skeleton keeps still leads to recorded nodes only, and every walk along its links ends. -/

namespace TapeScript.Skeleton

variable {s : Skeleton} {a id fuel : Nat}

inductive Operation where
  | push (command : Command)
  | beginLoop
  | sealLoop
  | take
  | leaveLoop
  | repeatLoop

/-- The skeleton that an operation leaves behind, also if it is refused. -/
def perform : Operation → Skeleton → Skeleton
  | .push command, s => s.push command
  | .beginLoop, s => s.beginLoop
  | .sealLoop, s => s.sealLoop.state
  | .take, s => s.take.2
  | .leaveLoop, s => s.leaveLoop
  | .repeatLoop, s => s.repeatLoop

def performAll (operations : List Operation) (s : Skeleton) : Skeleton :=
  operations.foldl (fun s operation => s.perform operation) s

/-- The operation if every node that it looks at is recorded and its walk ends. To seal a loop
is to look at no node. -/
def perform? (fuel : Nat) : Operation → Skeleton → Option Skeleton
  | .push command, s => s.push? command
  | .beginLoop, s => s.beginLoop?
  | .sealLoop, s => some s.sealLoop.state
  | .take, s => s.take?.map (·.2)
  | .leaveLoop, s => s.leaveLoop?
  | .repeatLoop, s => s.repeatLoop? fuel

/-! ## What every operation keeps -/

theorem Contained.perform (h : s.Contained) (operation : Operation) :
    (s.perform operation).Contained := by
  cases operation with
  | push command => exact h.push command
  | beginLoop => exact h.beginLoop
  | sealLoop => exact h.sealLoop
  | take => exact h.of_sameShape (sameShape_take s)
  | leaveLoop => exact h.of_sameShape (sameShape_leaveLoop s)
  | repeatLoop => exact h.of_sameShape (sameShape_repeatLoop s)

theorem Placed.perform (h : s.Placed) (ht : s.Threaded) (operation : Operation) :
    (s.perform operation).Placed := by
  cases operation with
  | push command => exact h.push command
  | beginLoop => exact h.beginLoop
  | sealLoop => exact h.sealLoop
  | take => exact h.take ht
  | leaveLoop => exact h.leaveLoop ht
  | repeatLoop => exact h.repeatLoop

theorem contained_placed_performAll (h : s.Contained) (hp : s.Placed)
    (operations : List Operation) :
    (s.performAll operations).Contained ∧ (s.performAll operations).Placed := by
  induction operations generalizing s with
  | nil => exact ⟨h, hp⟩
  | cons operation operations ih =>
      exact ih (h.perform operation) (hp.perform h.toThreaded operation)

theorem Threaded.perform?_eq (h : s.Threaded) (hp : s.Placed) (hfuel : s.size ≤ fuel)
    (operation : Operation) : s.perform? fuel operation = some (s.perform operation) := by
  cases operation with
  | push command => exact h.push?_eq command
  | beginLoop => exact h.beginLoop?_eq
  | sealLoop => rfl
  | take =>
      rw [Skeleton.perform?, h.take?_eq hp]
      rfl
  | leaveLoop => exact h.leaveLoop?_eq hp
  | repeatLoop => exact h.repeatLoop?_eq hp hfuel

/-! ## The beginning of a chain -/

/-- Among the nodes from which successors lead to a node, only this one has none before it. -/
structure BeginsChain (s : Skeleton) (start id : Nat) : Prop where
  prev : s.prev? start = none
  leads : s.Leads start id
  unique : ∀ a, s.prev? a = none → s.Leads a id → a = start

theorem Threaded.chainStart_of_leads (h : s.Threaded) (hl : s.Leads a id) :
    s.chainStart id = s.chainStart a := by
  induction hl with
  | refl => rfl
  | tail _ hn ih => exact (h.chainStart_of_prev? ((h.next_iff_prev _ _).mp hn)).trans ih

theorem Threaded.leads_chainStart (h : s.Threaded) (id : Nat) :
    s.prev? (s.chainStart id) = none ∧ s.Leads (s.chainStart id) id := by
  induction id using Nat.strongRecOn with
  | ind id ih =>
      cases hp : s.prev? id with
      | none =>
          rw [chainStart_of_first hp]
          exact ⟨hp, .refl⟩
      | some p =>
          have hn := (h.next_iff_prev p id).mpr hp
          rw [h.chainStart_of_prev? hp]
          obtain ⟨hfirst, hl⟩ := ih p (h.next_lt hn)
          exact ⟨hfirst, hl.tail hn⟩

theorem Threaded.beginsChain (h : s.Threaded) (id : Nat) :
    s.BeginsChain (s.chainStart id) id := by
  obtain ⟨hprev, hleads⟩ := h.leads_chainStart id
  refine ⟨hprev, hleads, fun a ha hl => ?_⟩
  rw [h.chainStart_of_leads hl, chainStart_of_first ha]

/-! ## The skeleton behind any operations -/

/-- Every number that is kept is that of a node, links lead forward and are mutual, and the
walks along them end: back to the start of a chain, and over the nodes in order for a listing.
So no operation looks at a node that is not there. -/
structure Traversable (s : Skeleton) : Prop where
  stored_lt : ∀ id, s.Stores id → id < s.size
  next_iff_prev : ∀ a b, s.next? a = some b ↔ s.prev? b = some a
  next_lt : ∀ a b, s.next? a = some b → a < b
  parent_lt : ∀ l p, s.IsLoop l → s.parent? l = some p → p < l
  first_gt : ∀ l f, s.first? l = some f → l < f
  open_next : ∀ l ∈ s.openLoops, s.next? l = none
  tail_next : ∀ t, s.tail = some t → s.next? t = none
  walkBack_eq : ∀ fuel id, s.size ≤ fuel → id < s.size →
    s.walkBack fuel id = some (s.chainStart id)
  beginsChain : ∀ id, id < s.size → s.BeginsChain (s.chainStart id) id
  walk_eq : ∀ fuel, s.size ≤ fuel → s.walk fuel = some s.rows
  rows_sorted : (s.rows.map (·.id)).Pairwise (· < ·)
  perform?_eq : ∀ fuel operation, s.size ≤ fuel →
    s.perform? fuel operation = some (s.perform operation)

theorem Contained.traversable (h : s.Contained) (hp : s.Placed) : s.Traversable where
  stored_lt _ := h.stored_lt hp
  next_iff_prev := h.next_iff_prev
  next_lt _ _ hn := h.next_lt hn
  parent_lt _ _ _ hl := h.parent_lt hl
  first_gt _ _ hf := (h.first_gt hf).1
  open_next _ hl := h.open_next hl
  tail_next _ ht := h.tail_next ht
  walkBack_eq _ _ hfuel hid := h.walkBack_eq hid (Nat.lt_of_lt_of_le hid hfuel)
  beginsChain id _ := h.beginsChain id
  walk_eq _ hfuel := h.walk_eq hfuel
  rows_sorted := h.rows_sorted
  perform?_eq _ operation hfuel := h.perform?_eq hp hfuel operation

theorem traversable_performAll (operations : List Operation) :
    (performAll operations {}).Traversable := by
  obtain ⟨h, hp⟩ := contained_placed_performAll .empty .empty operations
  exact h.traversable hp

/-- The first node of a loop need not begin the chain of its body. -/
example :
    let c := Command.extension '*'.toUInt8 .done
    let s := performAll [.beginLoop, .beginLoop, .sealLoop, .push c] {}
    s.first? 0 = some 2 ∧ s.prev? 2 = some 1 ∧ s.walkBack 3 2 = some 1 := ⟨rfl, rfl, rfl⟩

end TapeScript.Skeleton
