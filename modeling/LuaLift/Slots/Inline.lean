import LuaLift.Slots.Multres
import LuaLift.Slots.Uses
import LuaLift.Tree.Constructor

/-! # Inlining of slots

A slot that holds an intermediate value is replaced by that value wherever it is used,
and its assignment goes. Assignments to the elements of a new table move into its
constructor, several results go straight to their variables, and the controls of an
iterator become the call that makes them. -/
namespace LuaLift.Slots
open Tree Pass

/-- Lists that only hold parts of another node. -/
def isTransparent : Node → Bool
  | .list .records _ => false
  | .list _ _ => true
  | _ => false

/-- The innermost node of a path that is not a list, the first node of the path apart. -/
def holder? (path : List NodeId) : Edit (Option NodeId) := do
  match path with
  | [] => return none
  | _ :: around =>
    let kinds ← around.mapM fun i => return !isTransparent (← node i)
    return (around.zip kinds).findSome? fun (i, solid) => if solid then some i else none

structure Replacement where
  info : Info
  use : Use
  /-- the value, or the one that the assignment has when its turn comes -/
  value : Option NodeId := none

/-- Gives a result of a call or vararg to the variable that it is copied to. -/
structure Transfer where
  identifier : NodeId
  assignment : NodeId
  copy : NodeId
  target : NodeId

/-- What is to be done with the uses of slots, in the order of doing it. -/
structure Plan where
  replacements : List Replacement := []
  entries : List (Info × Use) := []
  transfers : List Transfer := []
  /-- assignment of the controls, value, and exit of a loop -/
  iterators : List (NodeId × NodeId × NodeId) := []

def valueOf (assignment : NodeId) : Edit NodeId := do
  match ← node assignment with
  | .assignment _ expressions _ => firstItem expressions
  | _ => throw .noPart

def destinationsOf (assignment : NodeId) : Edit (List NodeId) := do
  match ← node assignment with
  | .assignment _ _ destinations => items destinations
  | _ => throw .noPart

/-- Plans for a slot that is one of several destinations. -/
def planShared (plan : Plan) (info : Info) : Edit Plan := do
  match info.uses with
  | destination :: use :: others =>
    let holder ← holder? use.path
    let value ← valueOf info.assignment
    let valueNode ← node value
    require (match valueNode with
      | .call .. | .vararg | .primitive _ => true
      | _ => false) "several destinations share a call, a vararg or nil"
    let holderNode ← node (holder.getD .absent)
    match holderNode with
    | .assignment .. =>
      let target ← match ← destinationsOf (holder.getD .absent) with
        | d :: _ => pure d
        | [] => throw .outside
      require others.isEmpty "a result is used once"
      match use.path with
      | _ :: _ :: copy :: _ =>
        match ← node copy with
        | .assignment .. =>
          return { plan with transfers := plan.transfers ++
            [⟨destination.identifier, info.assignment, copy, target⟩] }
        | _ => throw (.broken "a result is copied by an assignment")
      | _ => throw .outside
    | .iterate .. =>
      require others.isEmpty "a result is used once"
      return { plan with iterators := plan.iterators ++
        [(info.assignment, value, holder.getD .absent)] }
    | _ =>
      match valueNode with
      | .primitive .nil =>
        require others.isEmpty "a result is used once"
        let copy ← add (.primitive .nil)
        return { plan with replacements := plan.replacements ++ [⟨info, use, some copy⟩] }
      | _ => return plan
  | _ => throw .outside

/-- Plans for one use of a slot that is the only destination. A use as the table of an
assigned element becomes an entry of the constructor. -/
def planUse (info : Info) (isTable : Bool) (plan : Plan) (use : Use) : Edit Plan := do
  match ← holder? use.path with
  | none => throw .unusable
  | some holder =>
    let outer := use.path.reverse.takeWhile (· != holder)
    let statement ← holder? outer.reverse
    let isTarget ← match ← node (statement.getD .absent) with
      | .assignment _ _ destinations => do pure ((← firstItem destinations) == holder)
      | _ => pure false
    match ← node holder with
    | .element table _ =>
      if isTable && isTarget then
        require (table == use.identifier) "a new table is not a key"
        return { plan with entries := plan.entries ++ [(info, use)] }
      else return { plan with replacements := plan.replacements ++ [⟨info, use, none⟩] }
    | _ => return { plan with replacements := plan.replacements ++ [⟨info, use, none⟩] }

/-- Plans for a slot that is the only destination. A call that is used more than twice
stays. -/
def planSingle (plan : Plan) (info : Info) : Edit Plan := do
  let value ← node (← valueOf info.assignment)
  let isCall := match value with
    | .call .. => true
    | _ => false
  let isTable := match value with
    | .table .. => true
    | _ => false
  if isCall && info.uses.length > 3 then return plan
  (info.uses.drop 1).foldlM (planUse info isTable) plan

def makePlan (infos : List Info) : Edit Plan :=
  infos.foldlM (fun plan info => do
    match ← node info.assignment with
    | .assignment _ expressions destinations =>
      require ((← items expressions).length == 1) "a slot is assigned one value"
      if (← items destinations).length > 1 then planShared plan info else planSingle plan info
    | _ => throw (.broken "a slot is assigned")) {}

def replaceItem (listNode old new : NodeId) : Edit Bool := do
  let xs ← items listNode
  match xs.idxOf? old with
  | some k =>
    setItems listNode (xs.set k new)
    return true
  | none => return false

def applyReplacement (r : Replacement) : Edit Unit := do
  match r.use.path with
  | _ :: holder :: _ =>
    let value ← match r.value with
      | some v => pure v
      | none => valueOf r.info.assignment
    drop r.info.assignment
    let h ← node holder
    let found ←
      if isTransparent h then replaceItem holder r.use.identifier value
      else match h.replaceField? r.use.identifier value with
        | some h' => setNode holder h'; pure true
        | none => pure false
    require found "a use stands where it was found"
  | _ => throw .outside

def applyEntry (info : Info) (use : Use) : Edit Unit := do
  let constructor ← valueOf info.assignment
  match use.path with
  | _ :: element :: _ :: assignment :: _ =>
    match ← node assignment with
    | .assignment _ expressions _ =>
      match ← items expressions with
      | [value] =>
        drop assignment
        match ← node element with
        | .element _ key => insertEntry constructor key value
        | _ => throw .noPart
      | _ => throw (.broken "an assignment to a field has one value")
    | _ => throw (.broken "an entry is assigned")
  | _ => throw .outside

def applyTransfer (t : Transfer) : Edit Unit := do
  match ← node t.assignment with
  | .assignment _ _ destinations =>
    let found ← replaceItem destinations t.identifier t.target
    drop t.copy
    require found "a result stands where it was found"
  | _ => throw .noPart

def slotOf (i : NodeId) : Edit Int := do
  match ← node i with
  | .identifier x => return x.slot
  | _ => throw .noPart

/-- Puts a value in place of the controls of a loop, once for each loop. -/
def applyIterators : List NodeId → List (NodeId × NodeId × NodeId) → Edit Unit
  | _, [] => return ()
  | seen, (assignment, value, exit) :: rest => do
    if seen.contains exit then applyIterators seen rest
    else
      match ← node exit with
      | .iterate _ controls _ _ =>
        (← destinationsOf assignment).zipIdx.forM fun (d, k) => do
          let c ← atPosition (← items controls) k
          require ((← slotOf c) == (← slotOf d)) "the controls of a loop are assigned in order"
        setItems controls [value]
        drop assignment
        applyIterators (exit :: seen) rest
      | _ => throw .noPart

def inlineSlots (root : NodeId) : Edit Unit := do
  resolveMultres root
  let plan ← makePlan (← collectUses root).1
  plan.replacements.forM applyReplacement
  plan.entries.forM fun (info, use) => applyEntry info use
  plan.transfers.forM applyTransfer
  applyIterators [] plan.iterators
  cleanup root

end LuaLift.Slots
