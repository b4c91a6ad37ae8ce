import LuaLift.Flow.Exits

/-! # Regions

The region of a block that branches is what lies between it and the block where its
branches meet. -/
namespace LuaLift.Flow
open Tree Pass

/-- Looks for the block where the branches of the first block meet: the farthest block
that is led to, up to a jump to that block or the end of the function. -/
def meetingFrom (stop : NodeId) : List NodeId → Edit NodeId
  | [] => return stop
  | i :: rest => do
    let exit ← exitNode i
    let target ← targetOrStop exit
    match exit with
    | .stop .absent =>
      require (i == stop) "the function does not end inside a region"
      return i
    | _ =>
      let isJump := match exit with
        | .jump .. => true
        | _ => false
      if isJump && target == stop then return stop
      if (← indexOf target) > (← indexOf stop) then meetingFrom target rest
      else meetingFrom stop rest

def meeting (blocks : List NodeId) : Edit NodeId := do
  match blocks with
  | [] => throw .outside
  | first :: _ => meetingFrom first blocks

/-- The blocks of a region, the block after it and the position of that one. -/
structure Region where
  body : List NodeId
  stop : NodeId
  stopIndex : Nat

/-- The region of the block at position `k`. The block after it may be `outer`, which
stands behind all blocks. `none` if the branches meet outside. -/
def regionAt? (blocks : List NodeId) (k : Nat) (outer : NodeId) : Edit (Option Region) := do
  let stop ← meeting (blocks.drop k)
  let region := fun (stopIndex : Nat) => Region.mk ((blocks.take stopIndex).drop (k + 1)) stop stopIndex
  match blocks.idxOf? stop with
  | some stopIndex => return some (region stopIndex)
  | none => return if stop == outer then some (region blocks.length) else none

end LuaLift.Flow
