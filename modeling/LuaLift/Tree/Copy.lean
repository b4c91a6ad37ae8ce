import LuaLift.Tree.Store

/-! # Copies of parts of the graph

A copy of a node comes with copies of all nodes that it leads to, linked in the same
way; a node that stands in several places is copied once. -/
namespace LuaLift.Tree
open Pass
variable {σ : Type}

/-- The nodes that can be reached from those in `todo`, after those in `found`. Each
step finds a node or drops a link, so the links of the store bound the steps. -/
def reach (s : Store) : Nat → List NodeId → List NodeId → List NodeId
  | 0, _, found => found
  | _ + 1, [], found => found
  | fuel + 1, i :: todo, found =>
    if i == .absent || found.contains i then reach s fuel todo found
    else
      let n := s.node i
      reach s fuel (n.fields ++ n.items ++ todo) (found ++ [i])

/-- Number of links of all nodes, and of the nodes. -/
def Store.linkCount (s : Store) : Nat :=
  s.cells.foldl (fun k c => k + c.node.fields.length + c.node.items.length + 1) 0

def copyDeep (root : NodeId) : Pass σ NodeId := do
  let s := (← get).store
  let nodes := reach s (s.linkCount + 1) [root] []
  let base := s.cells.size
  let image := fun (i : NodeId) => match nodes.idxOf? i with
    | some k => (⟨base + k⟩ : NodeId)
    | none => i
  nodes.forM fun i => do
    let c ← cell i
    let _ ← addCell { c with node := c.node.mapLinks image }
  return image root

end LuaLift.Tree
