import TapeScript.Command

/-! The loop structure of a script, grown one command at a time.

Nodes are numbered in the order of their arrival and never removed. The script and every
loop body form a chain of their own, doubly linked, whose first node has no predecessor.
A loop stands in the chain around it as a node of its own, and the successor of that node
is whatever follows the loop. To enter a loop again is to walk back along the body chain
to its first node, and to leave it is to go on behind the loop node.

While a loop is being scanned its commands are recorded and not executed: so a loop that
is left before its close was seen is passed over without reading ahead. -/

namespace TapeScript

namespace Skeleton

/-- A command and the loop around it, or a loop with the first node of its body and the
loop around it. -/
inductive Entry where
  | op (command : Command) (loop : Option Nat)
  | loop (first : Option Nat) (parent : Option Nat)

structure Node where
  prev : Option Nat
  next : Option Nat
  entry : Entry

namespace Node

def isLoop (n : Node) : Bool :=
  match n.entry with
  | .loop .. => true
  | .op .. => false

def follow (next : Nat) (n : Node) : Node := { n with next := some next }

/-- A loop without a body takes its first node; nothing else changes. -/
def adopt (first : Nat) (n : Node) : Node :=
  match n.entry with
  | .loop none parent => { n with entry := .loop (some first) parent }
  | _ => n

end Node

/-- Adds a node behind the last one of a chain, or as the first of a new chain. -/
def extend (nodes : Array Node) (tail : Option Nat) (entry : Entry) : Array Node :=
  let id := nodes.size
  match tail with
  | some t => (nodes.modify t (·.follow id)).push ⟨tail, none, entry⟩
  | none => nodes.push ⟨none, none, entry⟩

def adoptFirst (nodes : Array Node) (loop : Option Nat) (first : Nat) : Array Node :=
  match loop with
  | some l => nodes.modify l (·.adopt first)
  | none => nodes

@[simp] theorem size_extend (nodes : Array Node) (tail : Option Nat) (entry : Entry) :
    (extend nodes tail entry).size = nodes.size + 1 := by
  cases tail <;> simp [extend]

@[simp] theorem size_adoptFirst (nodes : Array Node) (loop : Option Nat) (first : Nat) :
    (adoptFirst nodes loop first).size = nodes.size := by
  cases loop <;> simp [adoptFirst]

end Skeleton

/-- `pending` is executed next and `last` was executed last. Open loops stand innermost
first. A command is linked behind `tail`, which is none where a chain begins. -/
structure Skeleton where
  nodes : Array Skeleton.Node := #[]
  pending : Option Nat := none
  last : Option Nat := none
  openLoops : List Nat := []
  tail : Option Nat := none
  scanned : Option Nat := none
  skipped : Nat := 0

namespace Skeleton

def size (s : Skeleton) : Nat := s.nodes.size

def isEmpty (s : Skeleton) : Bool := s.nodes.isEmpty

def loops (s : Skeleton) : Nat := s.nodes.countP (·.isLoop)

def depth (s : Skeleton) : Nat := s.openLoops.length

def innermost (s : Skeleton) : Option Nat := s.openLoops.head?

def isScanning (s : Skeleton) : Bool := s.scanned.isSome

def isDue (s : Skeleton) : Bool := s.pending.isSome

def entry? (s : Skeleton) (id : Nat) : Option Entry := s.nodes[id]?.map (·.entry)

def next? (s : Skeleton) (id : Nat) : Option Nat := s.nodes[id]?.bind (·.next)

def prev? (s : Skeleton) (id : Nat) : Option Nat := s.nodes[id]?.bind (·.prev)

def command? (s : Skeleton) (id : Nat) : Option Command :=
  match s.entry? id with
  | some (.op command _) => some command
  | _ => none

def first? (s : Skeleton) (id : Nat) : Option Nat :=
  match s.entry? id with
  | some (.loop first _) => first
  | _ => none

/-- A loop is in its own body; a command is in the body around it. -/
def ownLoop? (s : Skeleton) (id : Nat) : Option Nat :=
  match s.entry? id with
  | some (.op _ loop) => loop
  | some (.loop ..) => some id
  | none => none

/-- The loop around a node. -/
def parent? (s : Skeleton) (id : Nat) : Option Nat :=
  match s.entry? id with
  | some (.op _ loop) => loop
  | some (.loop _ parent) => parent
  | none => none

/-- Where to execute when a node is due: a loop stands for the first node of its body. -/
def target? (s : Skeleton) (id : Nat) : Option Nat :=
  match s.entry? id with
  | some (.op ..) => some id
  | some (.loop first _) => first
  | none => none

/-- The first node of the chain of a node. -/
def chainStart (s : Skeleton) (id : Nat) : Nat :=
  match s.prev? id with
  | some p => if p < id then s.chainStart p else id
  | none => id
termination_by id

/-! ## Recording -/

/-- Records a command. It is due next. -/
def push (command : Command) : Skeleton → Skeleton
  | ⟨nodes, _, last, openLoops, tail, scanned, skipped⟩ =>
    let id := nodes.size
    let loop := openLoops.head?
    let skipped := if scanned.isSome then skipped + 1 else skipped
    ⟨extend (adoptFirst nodes loop id) tail (.op command loop), some id, last, openLoops,
      some id, scanned, skipped⟩

/-- Begins a loop inside the innermost open one. Its body is a new chain. -/
def beginLoop : Skeleton → Skeleton
  | ⟨nodes, pending, last, openLoops, tail, scanned, skipped⟩ =>
    let id := nodes.size
    ⟨extend nodes tail (.loop none openLoops.head?), pending, last, id :: openLoops, none,
      scanned, skipped⟩

/-- Ends the body of the innermost open loop. If it was being scanned, execution goes on
with what is recorded behind it. -/
def sealLoop : Skeleton → Outcome Skeleton
  | ⟨nodes, pending, last, openLoops, tail, scanned, skipped⟩ =>
    match openLoops with
    | [] => .fault .unmatchedClose ⟨nodes, pending, last, [], tail, scanned, skipped⟩
    | loop :: outer =>
      if scanned = some loop then .ok ⟨nodes, none, last, outer, some loop, none, skipped⟩
      else .ok ⟨nodes, pending, last, outer, some loop, scanned, skipped⟩

/-- Records a command with the loop that it opens before it, or closes behind it. -/
def record (command : Command) (s : Skeleton) : Outcome Skeleton :=
  match command.kind with
  | .simple _ => .ok (s.push command)
  | .loopOpen => .ok (s.beginLoop.push command)
  | .loopClose => (s.push command).sealLoop

/-- At the end of the script no loop may be open. -/
def check (s : Skeleton) : Except Fault Unit :=
  if s.openLoops.isEmpty then .ok () else .error (.unclosedLoops s.depth)

/-! ## Going through the recorded commands -/

/-- The command that is due. Its successor is due next. -/
def take (s : Skeleton) : Option Command × Skeleton :=
  match s.pending.bind s.target? with
  | some id => (s.command? id, { s with last := some id, pending := s.next? id })
  | none => (none, s)

/-- Leaves the loop of the last executed node. If nothing was recorded behind that node,
the rest of the body is still to be scanned. -/
def leaveLoop (s : Skeleton) : Skeleton :=
  match s.last with
  | none => s
  | some id =>
    match s.ownLoop? id with
    | none => s
    | some loop =>
      { s with
        pending := s.next? loop
        scanned := if (s.next? id).isNone then some loop else s.scanned }

/-- Goes back to the start of the body of the last executed node. -/
def repeatLoop (s : Skeleton) : Skeleton :=
  match s.last with
  | none => s
  | some id => { s with pending := some (s.chainStart id) }

@[simp] theorem size_push (command : Command) (s : Skeleton) :
    (s.push command).size = s.size + 1 := by
  simp [push, size]

@[simp] theorem size_beginLoop (s : Skeleton) : s.beginLoop.size = s.size + 1 := by
  simp [beginLoop, size]

@[simp] theorem nodes_sealLoop (s : Skeleton) : s.sealLoop.state.nodes = s.nodes := by
  obtain ⟨nodes, pending, last, openLoops, tail, scanned, skipped⟩ := s
  cases openLoops with
  | nil => rfl
  | cons => simp only [sealLoop]; split <;> rfl

@[simp] theorem nodes_take (s : Skeleton) : s.take.2.nodes = s.nodes := by
  simp only [take]
  split <;> rfl

@[simp] theorem nodes_leaveLoop (s : Skeleton) : s.leaveLoop.nodes = s.nodes := by
  simp only [leaveLoop]
  split
  · rfl
  · split <;> rfl

@[simp] theorem nodes_repeatLoop (s : Skeleton) : s.repeatLoop.nodes = s.nodes := by
  simp only [repeatLoop]
  split <;> rfl

end Skeleton

end TapeScript
