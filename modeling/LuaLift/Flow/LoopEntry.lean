import LuaLift.Tree.Walk

/-! # Loop tests at the start of loops

In bytecode the test of a `for` loop stands at the end of its body. It changes places
with the exit of the block before the body, so that the block in front of a loop leads
to the body or out of the loop, and the end of the body leads back to that block. -/
namespace LuaLift.Flow
open Tree Pass

def addressOf (i : NodeId) : Edit Int := do
  match (← cell i).address with
  | some a => return a
  | none => throw .noPart

def blockBefore (blocks : List NodeId) (i : NodeId) : Edit NodeId := do
  match blocks.idxOf? i with
  | none => throw .unusable
  | some k =>
    require (k > 0) "the body of a loop is not the first block"
    atPosition blocks ((k : Int) - 1)

/-- Exchanges the exits of two blocks; the exits keep their places' addresses. -/
def exchangeExits (start stop : NodeId) : Edit Unit := do
  let startExit := (← block start).exit
  let stopExit := (← block stop).exit
  let stopAddress ← addressOf stopExit
  let startAddress ← addressOf startExit
  setAddress startExit stopAddress
  setAddress stopExit startAddress
  modifyBlock stop ({ · with exit := startExit })
  modifyBlock start ({ · with exit := stopExit })

/-- Moves the test of an iterator loop, which ends block `stop`, to its start. -/
def moveIteratorTest (blocks : List NodeId) (stop body : NodeId) : Edit Unit := do
  let start ← blockBefore blocks body
  let startExit := (← block start).exit
  match ← node startExit with
  | .jump kind target closes =>
    require (kind == .jump) "an iterator loop is entered by a jump"
    require (target == stop) "an iterator loop is entered at its test"
    exchangeExits start stop
    setNode startExit (.jump kind start closes)
  | _ => throw (.broken "an iterator loop is entered by a jump")

/-- Moves the test of a numeric loop, which ends block `stop`, to its start. -/
def moveNumericTest (blocks : List NodeId) (stop body : NodeId) : Edit Unit := do
  let start ← blockBefore blocks body
  let startExit := (← block start).exit
  match ← node startExit with
  | .jump kind target closes =>
    require (kind == .flow) "a numeric loop is entered from above"
    require (target == body) "a numeric loop is entered at its body"
    exchangeExits start stop
    setNode startExit (.jump .jump start closes)
  | _ => throw (.broken "a numeric loop is entered from above")

/-- Moves a return behind a jump that closes upvalues to before the jump. -/
def moveReturn (i next : NodeId) : Edit Unit := do
  let exit := (← block i).exit
  match ← node exit with
  | .jump _ target closes =>
    match ← items target with
    | [statement] =>
      match ← node statement with
      | .ret _ =>
        appendItem i statement
        setAddress statement (← block i).last
        setItems target []
        setNode exit (.jump .flow next closes)
      | _ => return ()
    | _ => return ()
  | _ => return ()

/-- A block that assigns a slot to itself and goes on at `target`. It stands for the
branch of a test whose two branches lead to the same block. -/
def selfAssignment (after : Block) (slot : Int) (target : NodeId) : Edit NodeId := do
  let exit ← add (.jump .flow target false)
  let id : Identifier := { kind := .slot, slot }
  let destinations ← addList .targets [← add (.identifier id)]
  let expressions ← addList .expressions [← add (.identifier id)]
  let statement ← add (.assignment (.other (-1)) expressions destinations)
  add (.block {
    index := after.index + 1, exit, contents := [statement]
    first := after.last, last := after.last, entries := 1 })

/-- Rearranges the exit of the block at position `k`. `shift` blocks were added before
it. Gives the block that is added after it, if any. -/
def rearrange (blocks : List NodeId) (k : Nat) (i : NodeId) (shift : Int) :
    Edit (Option NodeId) := do
  let exit := (← block i).exit
  modifyBlock i fun b => { b with index := b.index + shift }
  match ← node exit with
  | .iterate _ _ body _ => moveIteratorTest blocks i body; return none
  | .count _ _ body _ => moveNumericTest blocks i body; return none
  | .jump _ _ true =>
    require (blocks.getLast? != some i) "a jump is not the end of a function"
    moveReturn i (← atPosition blocks ((k : Int) + 1))
    return none
  | .test condition onTrue onFalse slot =>
    let tested := slot.getD (-1)
    if onTrue != onFalse || tested < 0 then return none
    let b ← block i
    require ((← block onFalse).index == b.index - shift + 1)
      "a test without branches leads to the next block"
    let added ← selfAssignment b tested onFalse
    setNode exit (.test condition added onFalse slot)
    return some added
  | _ => return none

def rearrangeFrom (blocks : List NodeId) (k : Nat) (shift : Int) :
    List NodeId → Edit (List NodeId)
  | [] => return []
  | i :: rest => do
    match ← rearrange blocks k i shift with
    | some added => return i :: added :: (← rearrangeFrom blocks (k + 1) (shift + 1) rest)
    | none => return i :: (← rearrangeFrom blocks (k + 1) shift rest)

def loopEntryVisitor : Visitor Unit where
  enter i := do
    match ← node i with
    | .list .statements blocks => setItems i (← rearrangeFrom blocks 0 0 blocks)
    | _ => return ()

def moveLoopTests (root : NodeId) : Edit Unit := walkTree loopEntryVisitor root

end LuaLift.Flow
