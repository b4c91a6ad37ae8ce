import LuaLift.Lift.Statement
import LuaLift.Lift.Exit

/-! # Functions

`Prototype.lift` makes the tree of a function: its blocks with their exits, and
the statements of each block. -/
namespace LuaLift.Lift
open Bytecode Tree Pass

/-- Fills a block with the statements of the instructions up to address `stop`. -/
def fillBlock (child : Prototype → Edit NodeId) (p : Prototype) (i : NodeId) (stop : Int) :
    Edit Unit := do
  let b ← block i
  let contents ← (List.range (stop - b.first + 1).toNat).mapM fun (k : Nat) => do
    let address := b.first + k
    let statement ← statement child p address (← atPosition p.instructions address)
    statement.forM (setAddress · address)
    return statement
  modifyBlock i fun b => { b with contents := contents.filterMap id }

/-- The blocks of a function. The first one is entered once, from outside. -/
def functionBlocks (child : Prototype → Edit NodeId) (p : Prototype) : Edit (List NodeId) := do
  let blocks ← addBlocks p.instructions
  match blocks with
  | [] => throw .outside
  | first :: _ =>
    let stops ← setExits p blocks
    modifyBlock first fun b => { b with entries := 1 }
    (blocks.zip stops).forM fun (i, stop) => fillBlock child p i stop
    return blocks

/-- The tree of a function whose children are nested at most `depth` deep. -/
def liftFunction : Nat → Prototype → Edit NodeId
  | 0, _ => throw .tooDeep
  | depth + 1, p => do
    let named ← slots 0 0 (p.argumentCount - 1)
    let arguments ← if p.flags.isVariadic then pure (named ++ [← add .vararg]) else pure named
    let blocks ← functionBlocks (liftFunction depth) p
    let arguments ← addList .identifiers arguments
    let statements ← addList .statements blocks
    add (.function arguments statements
      { debug := some p.debug, instructionCount := p.instructions.length })

def lift (p : Prototype) : Edit NodeId := liftFunction p.height p

end LuaLift.Lift
