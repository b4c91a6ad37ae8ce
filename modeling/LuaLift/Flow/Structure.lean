import LuaLift.Flow.Loops
import LuaLift.Flow.Values
import LuaLift.Flow.Branches

/-! # Structured control flow

Blocks and exits become statements: first loops that end in a jump, then `repeat`
loops, then expressions, then branches. What is left is a chain of blocks in each
list of statements, which is joined. -/
namespace LuaLift.Flow
open Tree Pass

inductive Stage where
  | loops | repeats | values | branches
deriving DecidableEq, Repr

def Stage.apply (stage : Stage) (list : NodeId) : Edit (List NodeId) := do
  match stage with
  | .loops => resolveLoops false list
  | .repeats => resolveLoops true list
  | .values => resolveValues (← items list)
  | .branches => resolveBranches (← items list)

/-- Runs a stage on all lists of statements of a tree and numbers the blocks anew. -/
def Stage.run (stage : Stage) (root : NodeId) : Edit Unit := do
  (← statementLists root).forM fun list => do setItems list (← stage.apply list)
  (← statementLists root).forM fun list => do renumber (← items list)

/-- Moves the statements of each block of a chain to the next one. -/
def joinFrom : NodeId → List NodeId → Edit Unit
  | _, [] => return ()
  | i, next :: rest => do
    match ← exitNode i with
    | .jump .flow target _ =>
      require (target == next) "a block flows into the next one"
      setItems next ((← items i) ++ (← items next))
      setItems i []
      joinFrom next rest
    | _ => throw (.broken "a block flows into the next one")

def joinList (list : NodeId) : Edit Unit := do
  match ← items list with
  | [] => throw .outside
  | first :: rest =>
    let last := rest.getLast?.getD first
    match ← exitNode last with
    | .stop _ =>
      joinFrom first rest
      setItems list (← items last)
    | _ => throw (.broken "a chain of blocks ends")

def join (root : NodeId) : Edit Unit := do (← statementLists root).forM joinList

def structured (root : NodeId) : Edit Unit := do
  Stage.loops.run root
  Stage.repeats.run root
  Stage.values.run root
  Stage.branches.run root
  join root

end LuaLift.Flow
