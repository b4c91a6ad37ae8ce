import LuaLift.Tree.Walk

/-! # Definitions of local variables

The first assignment to a local variable is its definition. A slot belongs to a
variable until that variable's last address. -/
namespace LuaLift.Locals
open Bytecode Tree Pass

/-- The variables that the slots of a function belong to. -/
structure Known where
  slots : List (Option Variable) := List.replicate 255 none
  address : Int := 0
deriving Inhabited

abbrev Marking := Pass (List Known)

def modifyKnown (f : Known → Known) : Marking Unit := do
  match ← own with
  | k :: ks => setOwn (f k :: ks)
  | [] => throw .outside

def known : Marking Known := do
  match ← own with
  | k :: _ => return k
  | [] => throw .outside

def identifierOf (i : NodeId) : Marking Identifier := do
  match ← node i with
  | .identifier x => return x
  | _ => throw .noPart

/-- Gives a slot to a variable, and tells whether a variable that is still live had it. -/
def claim (x : Identifier) (address : Int) : Marking Bool := do
  let k ← known
  match position? k.slots.length x.slot with
  | none => throw .outside
  | some n =>
    modifyKnown fun k => { k with slots := k.slots.set n x.info }
    match (k.slots[n]?).join with
    | some v => return v.stop > address
    | none => return false

def claimLoopVariables (ids : List NodeId) (address : Option Int) : Marking Unit := do
  match address with
  | none => throw .noPart
  | some a => ids.forM fun i => do
    let x ← identifierOf i
    if x.kind == .named then let _ ← claim x a

/-- Claims the other destinations of an assignment, which are as new as the first one.
`false` if one of them is not a local variable. -/
def claimOthers (isKnown : Bool) (address : Int) : List NodeId → Marking Bool
  | [] => return true
  | i :: rest => do
    match ← node i with
    | .identifier x =>
      if x.kind != .named then return false
      require ((← claim x address) == isKnown) "destinations are all new or all known"
      claimOthers isKnown address rest
    | _ => return false

def markAssignment (i expressions destinations : NodeId) : Marking Unit := do
  let address := (← known).address
  match ← items destinations with
  | [] => throw .outside
  | first :: others =>
    match ← node first with
    | .identifier x =>
      if x.kind == .named then
        let isKnown ← claim x address
        if ← claimOthers isKnown address others then
          unless isKnown do
            setNode i (.assignment .localDefinition expressions destinations)
    | _ => return ()

def definitionVisitor : Visitor (List Known) where
  admits i := do
    match (← cell i).address with
    | some a => if a ≥ 0 then modifyKnown ({ · with address := a })
    | none => pure ()
    return true
  enter i := do
    let c ← cell i
    match c.node with
    | .function arguments _ _ =>
      modifyOwn ({} :: ·)
      (← items arguments).forM fun a => do
        unless (← node a) == .vararg do
          let _ ← claim (← identifierOf a) 1
    | .iteratorFor _ identifiers _ => claimLoopVariables (← items identifiers) c.address
    | .numericFor index _ _ => claimLoopVariables [index] c.address
    | .assignment _ es ds => markAssignment i es ds
    | _ => return ()
  leave i := do
    match ← node i with
    | .function .. => modifyOwn (·.drop 1)
    | _ => return ()

def markDefinitions (root : NodeId) : Edit Unit := do
  let _ ← within ([] : List Known) (walkTree definitionVisitor root)

end LuaLift.Locals
