import LuaLift.Tree.Walk

/-! # Results of unknown number

A call or a vararg whose results are not counted leaves them for the next consumer. It
moves to that consumer, and the assignment that held it goes. -/
namespace LuaLift.Slots
open Tree Pass

def cleanupVisitor : Visitor Unit where
  enter i := do
    match ← node i with
    | .block b =>
      let kept ← b.contents.filterM fun j => return !(← cell j).dropped
      modifyBlock i ({ · with contents := kept })
    | _ => return ()

def cleanup (root : NodeId) : Edit Unit := walkTree cleanupVisitor root

/-- The call or vararg that no consumer has taken yet. -/
abbrev Carrying := Pass (Option NodeId)

/-- Puts what is carried in place of the first use of results in a list. -/
def deliver (listNode : NodeId) : Carrying Unit := do
  let xs ← items listNode
  let uses ← xs.mapM fun x => return (← node x) == .multres
  match uses.idxOf? true with
  | none => return ()
  | some k =>
    match ← own with
    | none => throw (.broken "results are used after a call that leaves them")
    | some value =>
      setItems listNode (xs.set k value)
      setOwn none

/-- Takes up the call or vararg of an assignment whose results are not counted. -/
def pickUp (i expressions destinations : NodeId) : Carrying Unit := do
  match ← items destinations, ← items expressions with
  | [_], [value] =>
    match ← node value with
    | .call .. | .vararg =>
      require (← own).isNone "results are used before the next call leaves some"
      setOwn (some value)
      drop i
    | _ => throw (.broken "only a call or a vararg leaves results")
  | _, _ => throw (.broken "results are the only destination")

def multresVisitor : Visitor (Option NodeId) where
  enter i := do
    match ← node i with
    | .call _ arguments => deliver arguments
    | .ret values => deliver values
    | _ => return ()
  leave i := do
    match ← node i with
    | .assignment _ expressions destinations =>
      let _ ← firstItem expressions
      match ← node (← firstItem destinations) with
      | .multres => pickUp i expressions destinations
      | _ => deliver expressions
    | _ => return ()

def resolveMultres (root : NodeId) : Edit Unit := do
  let _ ← within (none : Option NodeId) (walkTree multresVisitor root)
  cleanup root

end LuaLift.Slots
