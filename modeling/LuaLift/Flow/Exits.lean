import LuaLift.Tree.Walk

/-! # Exits of blocks

The operations on exits that structuring the control flow needs. -/
namespace LuaLift.Flow
open Tree Pass

def exitNode (i : NodeId) : Edit Node := do node (← block i).exit

def indexOf (i : NodeId) : Edit Int := return (← block i).index

def positionOf (xs : List NodeId) (i : NodeId) : Edit Nat := do
  match xs.idxOf? i with
  | some k => return k
  | none => throw .unusable

/-- Where an exit leads when its test fails, or always. -/
def targetOf (exit : Node) : Edit NodeId :=
  match exit with
  | .test _ _ onFalse _ => return onFalse
  | .jump _ target _ => return target
  | _ => throw (.broken "the exit is a jump or a test")

/-- As `targetOf`; the end of a part leads to where the part would go on, if anywhere. -/
def targetOrStop (exit : Node) : Edit NodeId :=
  match exit with
  | .stop target => return target
  | _ => targetOf exit

def targetOfBlock (i : NodeId) : Edit NodeId := do targetOf (← exitNode i)

def setTarget (i target : NodeId) : Edit Unit := do
  let exit := (← block i).exit
  match ← node exit with
  | .test c t _ s => setNode exit (.test c t target s)
  | .jump k _ c => setNode exit (.jump k target c)
  | _ => throw (.broken "the exit is a jump or a test")

def setFlow (i target : NodeId) : Edit Unit := do
  let exit ← add (.jump .flow target false)
  modifyBlock i ({ · with exit := exit })

def setStop (i : NodeId) : Edit Unit := do
  let exit := (← block i).exit
  let target ← if exit == .absent then pure .absent else targetOrStop (← node exit)
  let stop ← add (.stop target)
  modifyBlock i ({ · with exit := stop })

/-- An empty block to follow a given one. -/
def followingBlock (i : NodeId) : Edit NodeId := do
  let b ← block i
  add (.block {
    index := b.index + 1, first := b.last + 1, last := b.last + 1, entries := b.entries })

/-- An exit that leads to `new` where it led to `old`. -/
def redirect (old new : NodeId) (exit : Node) : Node :=
  let change := fun i => if i == old then new else i
  match exit with
  | .jump k t c => .jump k (change t) c
  | .test c t f s => .test c (change t) (change f) s
  | .iterate vs cs b w => .iterate vs cs (change b) (change w)
  | .count i cs b w => .count i cs (change b) (change w)
  | other => other

def replaceTargets (blocks : List NodeId) (old new : NodeId) : Edit Unit :=
  blocks.forM fun i => do
    let exit := (← block i).exit
    match ← node exit with
    | .jump .. | .test .. | .iterate .. | .count .. => setNode exit (redirect old new (← node exit))
    | .stop _ => return ()
    | _ => throw .noPart

/-- The lists of statements of a tree that are not empty, in the order of a walk. -/
def statementLists (root : NodeId) : Edit (List NodeId) := do
  let visitor : Visitor (Array NodeId) := {
    enter := fun i => do
      match ← node i with
      | .list .statements (_ :: _) => modifyOwn (·.push i)
      | _ => return () }
  let ((), lists) ← within #[] (walkTree visitor root)
  return lists.toList

def renumber (blocks : List NodeId) : Edit Unit :=
  blocks.zipIdx.forM fun (i, k) => do
    match ← node i with
    | .block b => setNode i (.block { b with index := k })
    | _ => return ()

end LuaLift.Flow
