import TapeScript.Action.Basic

/-! The elementary actions, and actions composed of them. -/

namespace TapeScript

inductive Prim where
  | add (amount : UInt8)
  | multiply (factor : UInt8)
  | set (byte : UInt8)
  | shift (distance : Int)
  | moveTo (i : Nat)
  | copyFrom (i : Nat)
  | write (i : Nat) (byte : UInt8)
  | send (byte : UInt8)
  | output
  | input
  | fail (text : String)
  deriving Repr, DecidableEq

namespace Prim

/-- Cell arithmetic wraps at 256. Input leaves the cell alone at the end of the stream. -/
def action : Prim → Action
  | add amount => .demand .current fun (byte : UInt8) =>
      .demand (.setCurrent (byte + amount)) fun _ => .done
  | multiply factor => .demand .current fun (byte : UInt8) =>
      .demand (.setCurrent (byte * factor)) fun _ => .done
  | set byte => .demand (.setCurrent byte) fun _ => .done
  | shift distance => .demand (.shift distance) fun _ => .done
  | moveTo i => .demand (.moveTo i) fun _ => .done
  | copyFrom i => .demand (.read i) fun byte => .demand (.setCurrent byte) fun _ => .done
  | write i byte => .demand (.write i byte) fun _ => .done
  | send byte => .demand (.send byte) fun _ => .done
  | output => .demand .current fun byte => .demand (.send byte) fun _ => .done
  | input => .demand .receive fun
      | some byte => .demand (.setCurrent byte) fun _ => .done
      | none => .done
  | fail text => .fail (.custom text)

theorem strict_action (p : Prim) : p.action.Strict := by
  cases p with
  | add | multiply | copyFrom | output =>
    exact .demand _ _ fun _ => .demand _ _ fun _ => .done
  | set | shift | moveTo | write | send => exact .demand _ _ fun _ => .done
  | input => exact .demand _ _ fun
    | some _ => .demand _ _ fun _ => .done
    | none => .done
  | fail text => exact .fail _

end Prim

/-- The elementary actions in order, up to the first that fails. -/
def Action.ofPrims (prims : List Prim) : Action :=
  prims.foldr (fun p rest => p.action.andThen rest) .done

theorem Action.strict_ofPrims (prims : List Prim) : (Action.ofPrims prims).Strict := by
  induction prims with
  | nil => exact .done
  | cons p prims ih => exact p.strict_action.andThen ih

end TapeScript
