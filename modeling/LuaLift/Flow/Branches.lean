import LuaLift.Flow.Condition
import LuaLift.Flow.Region

/-! # Branches

A region that starts with a test becomes an `if` statement at the end of its first
block. -/
namespace LuaLift.Flow
open Tree Pass

/-- The blocks that the branches of a region can start with when its test fails: those
after a jump to the end of the region, and the end itself. -/
def otherwiseStarts (body : List NodeId) (stop outer : NodeId) : Edit (List NodeId) := do
  let pairs := body.zip (body.drop 1)
  let starts ← pairs.filterMapM fun (i, next) => do
    match ← exitNode i with
    | .jump .jump target _ =>
      return if target == stop || target == outer then some next else none
    | _ => return none
  return starts ++ [stop] ++ (if outer == .absent then [] else [outer])

/-- Goes through the blocks of a condition, up to the last one that leads to the place
where the first of them leads that leads to one of `starts`. Gives that place and the
number of blocks up to it. -/
def conditionEnd (starts : List NodeId) : List NodeId → Nat → NodeId → Nat → Edit (NodeId × Nat)
  | [], _, otherwise, count => do
    require (otherwise != .absent) "a condition leads out of its branch"
    return (otherwise, count)
  | i :: rest, k, otherwise, count => do
    let target ← targetOfBlock i
    if !starts.contains target then conditionEnd starts rest (k + 1) otherwise count
    else if otherwise == .absent || target == otherwise then
      conditionEnd starts rest (k + 1) target (k + 1)
    else return (otherwise, count)

/-- The condition of a region, the blocks after it, and the block that is reached when
it fails. The empty blocks at the start of a region belong to its condition. -/
def branchCondition (start : NodeId) (body : List NodeId) (stop outer : NodeId) :
    Edit (NodeId × List NodeId × NodeId) := do
  if body.isEmpty then throw .unset
  let empty ← body.mapM fun i => return (← items i).isEmpty
  let k := min (empty.takeWhile id).length (body.length - 1)
  let blocks := start :: body.take k
  let rest := body.drop k
  let starts ← otherwiseStarts rest stop outer
  let (otherwise, count) ← conditionEnd starts blocks 0 .absent 0
  let body := blocks.drop count ++ rest
  let yes ← atPosition body 0
  let condition ← compile (blocks.take count) ⟨.absent, yes, otherwise⟩
  return (condition, body, otherwise)

/-- Whether a branch may end in an exit: it leads to the end of the region. -/
def leavesTo (exit : Node) (stop outer : NodeId) : Bool :=
  match exit with
  | .jump _ target _ => target == stop || target == outer
  | _ => false

/-- The blocks that stay when regions, given by their first and last positions, are
each replaced by their first block. -/
def keepBlocks (blocks : List NodeId) (next : Nat) : List (Nat × Nat) → List NodeId
  | [] => blocks.drop next
  | (first, last) :: rest =>
    let upTo := if first == last then first else first + 1
    between blocks next upTo ++ keepBlocks blocks (last + 1) rest

/-- Cuts a branch off after its last block and structures it. -/
def closeBranch (inner : List NodeId → NodeId → Edit (List NodeId)) (body : List NodeId)
    (outer : NodeId) : Edit NodeId := do
  match body.getLast? with
  | none => throw .outside
  | some last =>
    setStop last
    addList .statements (← inner body outer)

/-- Turns a region into an `if` statement; `inner` structures the branches. -/
def resolveBranch (inner : List NodeId → NodeId → Edit (List NodeId)) (start : NodeId)
    (body : List NodeId) (stop outer : NodeId) : Edit Unit := do
  let (condition, body, otherwise) ← branchCondition start body stop outer
  if otherwise != stop && otherwise != outer then
    let k ← positionOf body otherwise
    let thenBody := body.take k
    let elseBody := body.drop k
    let thenExit ← exitNode (← atPosition thenBody (-1))
    require thenExit.isJump "the first branch jumps over the second"
    require (leavesTo thenExit stop outer) "the first branch jumps over the second"
    let elseExit ← exitNode (← atPosition elseBody (-1))
    match elseExit with
    | .jump .jump _ _ => require (leavesTo elseExit stop outer) "the second branch ends the region"
    | .jump _ target _ => require (target == stop) "the second branch ends the region"
    | .stop _ => pure ()
    | _ => throw (.broken "the second branch ends the region")
    let thenBlock ← closeBranch inner thenBody outer
    let elseBlock ← closeBranch inner elseBody outer
    appendItem start (← add (.ifElse condition thenBlock [] elseBlock))
  else
    let exit ← exitNode (← atPosition body (-1))
    match exit with
    | .stop _ => pure ()
    | _ => require (leavesTo exit stop outer) "the branch ends the region"
    let thenBlock ← closeBranch inner body outer
    let elseBlock ← addList .statements
    appendItem start (← add (.ifElse condition thenBlock [] elseBlock))

/-- Structures the regions from position `k` on. Gives the positions of those that
became statements. -/
def branchesFrom (inner : List NodeId → NodeId → Edit (List NodeId)) (blocks : List NodeId)
    (outer : NodeId) : Nat → Nat → Edit (List (Nat × Nat))
  | 0, _ => throw .tooDeep
  | fuel + 1, k => do
    if k + 1 < blocks.length then
      let start ← atPosition blocks k
      if (← exitNode start).isFlow then branchesFrom inner blocks outer fuel (k + 1)
      else
        match ← regionAt? blocks k outer with
        | none => throw .needsGoto
        | some r =>
          let last ← atPosition r.body (-1)
          let isEnd := match ← exitNode last with
            | .stop _ => true
            | _ => false
          resolveBranch inner start r.body r.stop r.stop
          if isEnd then setStop start else setFlow start r.stop
          return (k, r.stopIndex - 1) :: (← branchesFrom inner blocks outer fuel r.stopIndex)
    else return []

/-- Structures the branches of blocks. A branch has fewer blocks, so as much `depth` as
there are blocks suffices. -/
def branches : Nat → List NodeId → NodeId → Edit (List NodeId)
  | 0, _, _ => throw .tooDeep
  | depth + 1, blocks, outer => do
    let regions ← branchesFrom (branches depth) blocks outer (blocks.length + 1) 0
    return keepBlocks blocks 0 regions

def resolveBranches (blocks : List NodeId) : Edit (List NodeId) :=
  branches (blocks.length + 1) blocks .absent

end LuaLift.Flow
