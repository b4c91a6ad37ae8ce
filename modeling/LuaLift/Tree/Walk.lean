import LuaLift.Tree.Store

/-! # Walking through a tree

`walk` visits a node and its parts in the order in which they run. -/
namespace LuaLift.Tree

/-- What is done at each node of a walk. -/
structure Visitor (σ : Type) where
  /-- asked before a node is visited; `false` leaves it out -/
  admits : NodeId → Pass σ Bool := fun _ => return true
  enter : NodeId → Pass σ Unit := fun _ => return ()
  leave : NodeId → Pass σ Unit := fun _ => return ()

/-- Visits a node and then its parts, to a given depth. The parts are those that
the node has once it has been entered. -/
def walk {σ : Type} (v : Visitor σ) : Nat → NodeId → Pass σ Unit
  | 0, _ => throw .tooDeep
  | depth + 1, i => do
    if ← v.admits i then
      Pass.require ((← Pass.node i) != .absent) "a part of a node is missing"
      v.enter i
      (← Pass.node i).children.forM (walk v depth)
      v.leave i

def walkTree {σ : Type} (v : Visitor σ) (root : NodeId) : Pass σ Unit := do
  walk v (← get).store.depth root

def walkList {σ : Type} (v : Visitor σ) (roots : List NodeId) : Pass σ Unit := do
  roots.forM (walk v (← get).store.depth)

end LuaLift.Tree
