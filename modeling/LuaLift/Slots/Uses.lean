import LuaLift.Tree.Store

/-! # Uses of slots

For each assignment to a slot in a block, the places in the same block that use what
was assigned. The first use is the destination of the assignment itself. -/
namespace LuaLift.Slots
open Tree Pass

structure Use where
  identifier : NodeId
  /-- the identifier and the nodes around it, innermost first -/
  path : List NodeId
deriving Inhabited

/-- An assignment to a slot, and the uses of the slot up to the next assignment. -/
structure Info where
  slot : Int
  assignment : NodeId
  uses : List Use := []
deriving Inhabited

structure Collecting where
  /-- the slots that are assigned so far in the current block, for each function around
  the current node, innermost first -/
  known : List (List Info) := [[]]
  /-- the nodes around the current one, innermost first -/
  path : List NodeId := []
  /-- a node that is left out because it is visited already -/
  done : NodeId := .absent
  /-- assignments that are used, in the order in which their uses end -/
  used : List Info := []
  /-- the other assignments, in the same order -/
  unused : List Info := []
deriving Inhabited

abbrev Collect := Pass Collecting

/-- Ends the uses of an assignment. -/
def commit (info : Info) : Collect Unit := do
  match info.uses with
  | [] => throw (.broken "the destination of an assignment is a use of it")
  | [_] => modifyOwn fun c => { c with unused := c.unused ++ [info] }
  | _ => modifyOwn fun c => { c with used := c.used ++ [info] }

def knownSlots : Collect (List Info) := return (← own).known.headD []

def setKnownSlots (infos : List Info) : Collect Unit :=
  modifyOwn fun c => { c with known := infos :: c.known.drop 1 }

def commitSlot (slot : Int) : Collect Unit := do
  let infos ← knownSlots
  match infos.find? (·.slot = slot) with
  | none => return ()
  | some info =>
    setKnownSlots (infos.filter (·.slot ≠ slot))
    commit info

/-- Starts the uses of a slot that is assigned. -/
def register (assignment : NodeId) (slot : Int) : Collect Unit := do
  commitSlot slot
  setKnownSlots ((← knownSlots) ++ [{ slot := slot, assignment := assignment }])

/-- Adds a use to the slot that it uses, if the slot is known. -/
def addUse (slot : Int) (use : Use) (infos : List Info) : List Info :=
  infos.map fun info => if info.slot = slot then { info with uses := info.uses ++ [use] } else info

def registerAll (assignment : NodeId) (destinations : List NodeId) : Collect Unit :=
  destinations.forM fun d => do
    match ← node d with
    | .identifier x => if x.kind == .slot then register assignment x.slot
    | _ => return ()

def commitAll (targets : List NodeId) : Collect Unit :=
  targets.forM fun v => do
    match ← node v with
    | .identifier x => commitSlot x.slot
    | _ => return ()

/-- What is done when a node is entered; `visit` visits a part. -/
def enterNode (visit : NodeId → Collect Unit) (i : NodeId) : Collect Unit := do
  match ← node i with
  | .assignment _ expressions destinations =>
    visit expressions
    modifyOwn ({ · with done := expressions })
    registerAll i (← items destinations)
  | .identifier x =>
    if x.kind == .slot then
      let path := (← own).path
      setKnownSlots (addUse x.slot ⟨i, path⟩ (← knownSlots))
  | .function .. => modifyOwn fun c => { c with known := [] :: c.known }
  | .iterate targets _ _ _ => commitAll (← items targets)
  | .count index _ _ _ =>
    match ← node index with
    | .identifier x => commitSlot x.slot
    | _ => throw .noPart
  | _ => return ()

def leaveNode (i : NodeId) : Collect Unit := do
  match ← node i with
  | .assignment .. => modifyOwn ({ · with done := .absent })
  | .function .. => modifyOwn fun c => { c with known := c.known.drop 1 }
  | .block _ =>
    let infos ← knownSlots
    infos.forM commit
    setKnownSlots []
  | _ => return ()

/-- Collects the uses below a node, to a given depth. The values of an assignment are
visited before its destinations become known. -/
def collect : Nat → NodeId → Collect Unit
  | 0, _ => throw .tooDeep
  | depth + 1, i => do
    unless (← own).done == i do
      require ((← node i) != .absent) "a part of a node is missing"
      modifyOwn fun c => { c with path := i :: c.path }
      enterNode (collect depth) i
      (← node i).children.forM (collect depth)
      modifyOwn fun c => { c with path := c.path.drop 1 }
      leaveNode i

/-- The assignments to slots that are used, and those that are not. -/
def collectUses (root : NodeId) : Edit (List Info × List Info) := do
  let depth := (← get).store.depth
  let ((), c) ← within ({} : Collecting) (collect depth root)
  return (c.used, c.unused)

end LuaLift.Slots
