import LuaLift.Fault
import LuaLift.Tree.Node

/-! # The store of nodes

All steps work on one store. A step that fails leaves the changes made so far in
the store, so a failure is a fault beside the store and not in place of it. -/
namespace LuaLift.Tree

/-- A node with what is known about it apart from its shape. -/
structure Cell where
  node : Node
  /-- address of the instruction that the node comes from -/
  address : Option Int := none
  /-- marked for removal from its block -/
  dropped : Bool := false
deriving DecidableEq, Repr, Inhabited

/-- All nodes, by number. Number 0 is the missing node. -/
structure Store where
  cells : Array Cell := #[⟨.absent, none, false⟩]
deriving Repr, Inhabited

namespace Store

def cell (s : Store) (i : NodeId) : Cell := s.cells.getD i.index ⟨.absent, none, false⟩

def node (s : Store) (i : NodeId) : Node := (s.cell i).node

def modifyCell (s : Store) (i : NodeId) (f : Cell → Cell) : Store :=
  { s with cells := s.cells.modify i.index f }

def setNode (s : Store) (i : NodeId) (n : Node) : Store :=
  s.modifyCell i fun c => { c with node := n }

def add (s : Store) (c : Cell) : NodeId × Store := (⟨s.cells.size⟩, { s with cells := s.cells.push c })

/-- Longest chain of parts that a step may follow. A graph without cycles has no
chain longer than its size, and the nodes that a step adds on the way are at most
a few for each node that was there. -/
def depth (s : Store) : Nat := 8 * s.cells.size + 64

end Store

/-- What a step works on: the store and a state of its own. -/
structure Work (σ : Type) where
  store : Store
  own : σ
deriving Inhabited

/-- A step that changes the store, keeps a state `σ` and may fail. -/
abbrev Pass (σ : Type) := EStateM Fault (Work σ)

/-- A step without a state of its own. -/
abbrev Edit := Pass Unit

namespace Pass
variable {σ : Type}

def node (i : NodeId) : Pass σ Node := return (← get).store.node i

def cell (i : NodeId) : Pass σ Cell := return (← get).store.cell i

def modifyStore (f : Store → Store) : Pass σ Unit :=
  modify fun w => { w with store := f w.store }

def setNode (i : NodeId) (n : Node) : Pass σ Unit := modifyStore (·.setNode i n)

def setAddress (i : NodeId) (a : Int) : Pass σ Unit :=
  modifyStore (·.modifyCell i fun c => { c with address := some a })

def drop (i : NodeId) : Pass σ Unit :=
  modifyStore (·.modifyCell i fun c => { c with dropped := true })

def addCell (c : Cell) : Pass σ NodeId :=
  modifyGet fun w => let (i, s) := w.store.add c; (i, { w with store := s })

def add (n : Node) : Pass σ NodeId := addCell { node := n }

def addAt (a : Int) (n : Node) : Pass σ NodeId := addCell { node := n, address := some a }

def own : Pass σ σ := return (← get).own

def setOwn (x : σ) : Pass σ Unit := modify fun w => { w with own := x }

def modifyOwn (f : σ → σ) : Pass σ Unit := modify fun w => { w with own := f w.own }

/-- Runs a step with another state inside this one. -/
def within {τ α : Type} (init : τ) (p : Pass τ α) : Pass σ (α × τ) := fun w =>
  match p ⟨w.store, init⟩ with
  | .ok a v => .ok (a, v.own) ⟨v.store, w.own⟩
  | .error e v => .error e ⟨v.store, w.own⟩

def require (holds : Bool) (rule : String) : Pass σ Unit :=
  if holds then return () else throw (.broken rule)

/-- The listed links of a list or a block. -/
def items (i : NodeId) : Pass σ (List NodeId) := do
  match ← node i with
  | .list _ xs => return xs
  | .block b => return b.contents
  | _ => throw .noPart

def setItems (i : NodeId) (xs : List NodeId) : Pass σ Unit := do
  match ← node i with
  | .list k _ => setNode i (.list k xs)
  | .block b => setNode i (.block { b with contents := xs })
  | _ => throw .noPart

def appendItem (i x : NodeId) : Pass σ Unit := do setItems i ((← items i) ++ [x])

def firstItem (i : NodeId) : Pass σ NodeId := do
  match ← items i with
  | x :: _ => return x
  | [] => throw .outside

def atPosition {α : Type} (xs : List α) (i : Int) : Pass σ α :=
  match at? xs i with
  | some x => return x
  | none => throw .outside

def block (i : NodeId) : Pass σ Block := do
  match ← node i with
  | .block b => return b
  | _ => throw .noPart

def modifyBlock (i : NodeId) (f : Block → Block) : Pass σ Unit := do
  setNode i (.block (f (← block i)))

/-- A new empty list node. -/
def addList (kind : ListKind) (xs : List NodeId := []) : Pass σ NodeId := add (.list kind xs)

end Pass

def Edit.run' {α : Type} (p : Edit α) (s : Store) : Except Fault α × Store :=
  match p ⟨s, ()⟩ with
  | .ok a w => (.ok a, w.store)
  | .error e w => (.error e, w.store)

end LuaLift.Tree
