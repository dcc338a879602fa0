import TapeScript.Skeleton.Basic
import TapeScript.Listing

/-! The listing of a skeleton follows its links: every loop before its body, and the body
before what comes behind the loop. -/

namespace TapeScript.Skeleton

/-- The rows from a node to the end of its chain. Links lead to later nodes only. -/
def rowsFrom (s : Skeleton) (depth id : Nat) : List Listing.Row :=
  if h : id < s.nodes.size then
    let behind :=
      match s.nodes[id].next with
      | some next => if id < next then s.rowsFrom depth next else []
      | none => []
    match s.nodes[id].entry with
    | .op command _ => ⟨depth, id, .token command.token⟩ :: behind
    | .loop (some first) _ =>
        ⟨depth, id, .loop⟩ ::
          ((if id < first then s.rowsFrom (depth + 1) first else []) ++ behind)
    | .loop none _ => ⟨depth, id, .loop⟩ :: behind
  else []
termination_by s.nodes.size - id

/-- The first node begins the chain of the script. -/
def rows (s : Skeleton) : List Listing.Row := s.rowsFrom 0 0

def listing (s : Skeleton) : String := Listing.text s.rows

end TapeScript.Skeleton
