import TapeScript.Proofs.Skeleton.Consistency
import TapeScript.Proofs.Skeleton.Rows

/-! # Looking at recorded nodes only

Here every look at a node demands that the node is recorded, and every walk along the links
that it ends: otherwise there is no result. As all numbers that a skeleton keeps are those of
recorded nodes and links lead one way, there always is one, the same as without the demands. -/

namespace TapeScript.Skeleton

variable {s : Skeleton} {nodes : Array Node} {id fuel : Nat} {c : Command}

/-- A node that is looked at must be recorded. -/
def look (s : Skeleton) (id : Nat) : Option Unit := if id < s.size then some () else none

theorem look_eq_some (h : id < s.size) : s.look id = some () := if_pos h

/-- A node that is changed must be there. -/
def alter (nodes : Array Node) (id : Nat) (change : Node → Node) : Option (Array Node) :=
  if id < nodes.size then some (nodes.modify id change) else none

/-! ## Walks along the links -/

/-- Goes back from a node as long as there is one before it. -/
def walkBack (s : Skeleton) : Nat → Nat → Option Nat
  | 0, _ => none
  | fuel + 1, id => do
    s.look id
    match s.prev? id with
    | some p => s.walkBack fuel p
    | none => some id

/-- Goes on from a node to the end of its chain, and into every loop on the way. -/
def walkRows (s : Skeleton) : Nat → Nat → Option Nat → Option (List Listing.Row)
  | _, _, none => some []
  | 0, _, some _ => none
  | fuel + 1, depth, some id => do
    let node ← s.nodes[id]?
    let body ← s.walkRows fuel (depth + 1) node.entry.first?
    let behind ← s.walkRows fuel depth node.next
    return ⟨depth, id, node.entry.label⟩ :: (body ++ behind)

/-- The rows of the script, which begins with the first node. -/
def walk (s : Skeleton) (fuel : Nat) : Option (List Listing.Row) :=
  if s.isEmpty then some [] else s.walkRows fuel 0 (some 0)

theorem Threaded.chainStart_of_prev? (h : s.Threaded) {p : Nat} (hp : s.prev? id = some p) :
    s.chainStart id = s.chainStart p := by
  have hlt := h.next_lt ((h.next_iff_prev p id).mpr hp)
  rw [chainStart, hp]
  exact if_pos hlt

theorem chainStart_of_first (hp : s.prev? id = none) : s.chainStart id = id := by
  rw [chainStart, hp]

theorem Threaded.walkBack_eq (h : s.Threaded) (hid : id < s.size) (hfuel : id < fuel) :
    s.walkBack fuel id = some (s.chainStart id) := by
  induction fuel generalizing id with
  | zero => exact absurd hfuel (Nat.not_lt_zero id)
  | succ fuel ih =>
      rw [walkBack, look_eq_some hid, Option.bind_eq_bind, Option.bind_some]
      cases hp : s.prev? id with
      | none => rw [chainStart_of_first hp]
      | some p =>
          have hlt := h.next_lt ((h.next_iff_prev p id).mpr hp)
          rw [h.chainStart_of_prev? hp]
          exact ih (Nat.lt_trans hlt hid) (by omega)

theorem Threaded.walkRows_eq (h : s.Threaded) {start : Option Nat}
    (hstart : ∀ id, start = some id → id < s.size ∧ s.size ≤ fuel + id) (depth : Nat) :
    s.walkRows fuel depth start = some (s.rowsAt depth start) := by
  induction fuel generalizing depth start with
  | zero =>
      cases start with
      | none => rfl
      | some id =>
          have hid := hstart id rfl
          omega
  | succ fuel ih =>
      cases start with
      | none => rfl
      | some id =>
          obtain ⟨hid, hfuel⟩ := hstart id rfl
          obtain ⟨node, hnode⟩ : ∃ node, s.nodes[id]? = some node :=
            ⟨_, Array.getElem?_eq_getElem hid⟩
          have hentry := entry?_of_getElem? hnode
          have hnext : s.next? id = node.next := by rw [next?, hnode, Option.bind_some]
          have hbody : s.walkRows fuel (depth + 1) node.entry.first? =
              some (s.rowsAt (depth + 1) node.entry.first?) := by
            refine ih (fun f hf => ?_) _
            have hlt := h.first_gt ((first?_of_entry hentry).trans hf)
            omega
          have hbehind : s.walkRows fuel depth node.next = some (s.rowsAt depth node.next) := by
            refine ih (fun b hb => ?_) _
            have hlt := h.next_lt (hnext.trans hb)
            have hsize := h.next_lt_size (hnext.trans hb)
            omega
          rw [walkRows, hnode, Option.bind_eq_bind, Option.bind_some, hbody, hbehind, rowsAt,
            rowsFrom_of_entry h hentry, hnext]
          rfl

theorem Threaded.walk_eq (h : s.Threaded) (hfuel : s.size ≤ fuel) :
    s.walk fuel = some s.rows := by
  rw [walk, isEmpty]
  by_cases hsize : s.nodes.size = 0
  · rw [Array.isEmpty, hsize, rows, rowsFrom, dif_neg (by omega)]
    rfl
  · rw [Array.isEmpty, decide_eq_false hsize]
    have hstart : ∀ id, some 0 = some id → id < s.size ∧ s.size ≤ fuel + id := by
      rintro id ⟨⟩
      exact ⟨Nat.pos_of_ne_zero hsize, hfuel⟩
    exact h.walkRows_eq hstart 0

/-! ## Operations -/

/-- Offers a new node to the innermost loop as its first. -/
def offerFirst (nodes : Array Node) (id : Nat) : Option Nat → Option (Array Node)
  | none => some nodes
  | some l => alter nodes l (·.adopt id)

/-- Puts a new node behind the tail. -/
def linkBehind (nodes : Array Node) (id : Nat) : Option Nat → Option (Array Node)
  | none => some nodes
  | some t => do
    let nodes ← alter nodes t (·.follow id)
    alter nodes id fun node => { node with prev := some t }

def push? (c : Command) (s : Skeleton) : Option Skeleton := do
  let id := s.size
  let nodes := s.nodes.push ⟨none, none, .op c s.innermost⟩
  let nodes ← offerFirst nodes id s.innermost
  let nodes ← linkBehind nodes id s.tail
  return { s with
    nodes
    pending := some id
    tail := some id
    skipped := if s.isScanning then s.skipped + 1 else s.skipped }

def beginLoop? (s : Skeleton) : Option Skeleton := do
  let id := s.size
  let nodes := s.nodes.push ⟨none, none, .loop none s.innermost⟩
  let nodes ← linkBehind nodes id s.tail
  return { s with nodes, openLoops := id :: s.openLoops, tail := none }

def take? (s : Skeleton) : Option (Option Command × Skeleton) :=
  match s.pending with
  | none => some (none, s)
  | some due => do
    s.look due
    match s.target? due with
    | none => return (none, s)
    | some id =>
      s.look id
      return (s.command? id, { s with last := some id, pending := s.next? id })

def leaveLoop? (s : Skeleton) : Option Skeleton :=
  match s.last with
  | none => some s
  | some id => do
    s.look id
    match s.ownLoop? id with
    | none => return s
    | some loop =>
      s.look loop
      return { s with
        pending := s.next? loop
        scanned := if (s.next? id).isNone then some loop else s.scanned }

def repeatLoop? (fuel : Nat) (s : Skeleton) : Option Skeleton :=
  match s.last with
  | none => some s
  | some id => do
    let start ← s.walkBack fuel id
    return { s with pending := some start }

theorem alter_push_of_lt (h : id < nodes.size) (node : Node) (change : Node → Node) :
    alter (nodes.push node) id change = some ((nodes.modify id change).push node) := by
  have hlt : id < (nodes.push node).size := by
    rw [Array.size_push]
    exact Nat.lt_succ_of_lt h
  rw [alter, if_pos hlt, Option.some.injEq]
  apply Array.ext_getElem?
  intro i
  rw [Array.getElem?_modify, Array.getElem?_push, Array.getElem?_push, Array.getElem?_modify,
    Array.size_modify]
  by_cases hi : i = nodes.size
  · rw [if_neg (hi ▸ Nat.ne_of_lt h), if_pos hi, if_pos hi]
  · rw [if_neg hi, if_neg hi]

theorem alter_push_size (nodes : Array Node) (node : Node) (change : Node → Node) :
    alter (nodes.push node) nodes.size change = some (nodes.push (change node)) := by
  have hlt : nodes.size < (nodes.push node).size := by
    rw [Array.size_push]
    exact Nat.lt_succ_self _
  rw [alter, if_pos hlt, Option.some.injEq]
  apply Array.ext_getElem?
  intro i
  rw [Array.getElem?_modify, Array.getElem?_push, Array.getElem?_push]
  by_cases hi : i = nodes.size
  · rw [if_pos hi.symm, if_pos hi, if_pos hi, Option.map_some]
  · rw [if_neg (Ne.symm hi), if_neg hi, if_neg hi]

theorem offerFirst_push {loop : Option Nat} (h : ∀ l, loop = some l → l < nodes.size)
    (node : Node) (id : Nat) :
    offerFirst (nodes.push node) id loop = some ((adoptFirst nodes loop id).push node) := by
  cases loop with
  | none => rfl
  | some l => exact alter_push_of_lt (h l rfl) node _

theorem linkBehind_push {tail : Option Nat} (h : ∀ t, tail = some t → t < nodes.size)
    (entry : Entry) :
    linkBehind (nodes.push ⟨none, none, entry⟩) nodes.size tail =
      some (extend nodes tail entry) := by
  cases tail with
  | none => rfl
  | some t =>
      have halter := alter_push_size (nodes.modify t (·.follow nodes.size))
        ⟨none, none, entry⟩ fun node => { node with prev := some t }
      rw [Array.size_modify] at halter
      rw [linkBehind, alter_push_of_lt (h t rfl), Option.bind_eq_bind, Option.bind_some, halter]
      rfl

namespace Threaded

theorem push?_eq (h : s.Threaded) (c : Command) : s.push? c = some (s.push c) := by
  have hoffer := offerFirst_push (fun _ hl => h.innermost_lt hl)
    ⟨none, none, .op c s.innermost⟩ s.size
  have hsize : (adoptFirst s.nodes s.innermost s.size).size = s.size := size_adoptFirst _ _ _
  have htail : ∀ t, s.tail = some t → t < (adoptFirst s.nodes s.innermost s.size).size :=
    fun _ ht => Nat.lt_of_lt_of_eq (h.tail_lt ht) hsize.symm
  have hlink := linkBehind_push htail (.op c s.innermost)
  rw [hsize] at hlink
  simp only [push?, hoffer, hlink, Option.bind_eq_bind, Option.bind_some]
  rfl

theorem beginLoop?_eq (h : s.Threaded) : s.beginLoop? = some s.beginLoop := by
  have htail : ∀ t, s.tail = some t → t < s.nodes.size := fun _ ht => h.tail_lt ht
  have hlink := linkBehind_push htail (.loop none s.innermost)
  rw [← size] at hlink
  simp only [beginLoop?, hlink, Option.bind_eq_bind, Option.bind_some]
  rfl

theorem take?_eq (h : s.Threaded) (hp : s.Placed) : s.take? = some s.take := by
  rw [take?, take]
  cases hdue : s.pending with
  | none => rfl
  | some due =>
      simp only [look_eq_some (hp.pending_lt hdue), Option.bind_eq_bind, Option.bind_some]
      cases htarget : s.target? due with
      | none => rfl
      | some id =>
          simp only [look_eq_some (h.target?_lt htarget), Option.bind_some]
          rfl

theorem leaveLoop?_eq (h : s.Threaded) (hp : s.Placed) : s.leaveLoop? = some s.leaveLoop := by
  rw [leaveLoop?, leaveLoop]
  cases hlast : s.last with
  | none => rfl
  | some id =>
      simp only [look_eq_some (hp.last_lt hlast), Option.bind_eq_bind, Option.bind_some]
      cases hown : s.ownLoop? id with
      | none => rfl
      | some loop =>
          simp only [look_eq_some (h.ownLoop?_lt hown), Option.bind_some]
          rfl

theorem repeatLoop?_eq (h : s.Threaded) (hp : s.Placed) (hfuel : s.size ≤ fuel) :
    s.repeatLoop? fuel = some s.repeatLoop := by
  rw [repeatLoop?, repeatLoop]
  cases hlast : s.last with
  | none => rfl
  | some id =>
      have hid := hp.last_lt hlast
      simp only [h.walkBack_eq hid (Nat.lt_of_lt_of_le hid hfuel), Option.bind_eq_bind,
        Option.bind_some]
      rfl

end Threaded

end TapeScript.Skeleton
