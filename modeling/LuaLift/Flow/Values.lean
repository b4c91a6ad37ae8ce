import LuaLift.Flow.Condition
import LuaLift.Flow.Region
import LuaLift.Slots.Inline

/-! # Values of conditions

An expression with `and` and `or` whose value is assigned is a region whose blocks
assign one slot. It becomes a single assignment. -/
namespace LuaLift.Flow
open Tree Pass

/-- A region that computes the value of a variable. -/
structure Span where
  start : NodeId
  stop : NodeId
  slot : Int
  kind : Option IdentifierKind
deriving DecidableEq

def farthest (first : Span) (others : List Span) : Edit NodeId :=
  others.foldlM (fun stop s => do
    if (← indexOf s.stop) > (← indexOf stop) then return s.stop else return stop) first.stop

/-- The variable that a region of two blocks assigns true or false to. -/
def assignedFlag? (body : List NodeId) : Edit (Option Identifier) := do
  if body.length != 2 then return none
  match ← splitTerminators body with
  | (some (yes, _), _) =>
    match ← items yes with
    | [statement] =>
      match ← node statement with
      | .assignment _ _ destinations =>
        match ← node (← firstItem destinations) with
        | .identifier x => return some x
        | _ => throw .noPart
      | _ => throw .noPart
    | _ => throw .outside
  | _ => return none

structure Search where
  slot : Int := -1
  kind : Option IdentifierKind := none
  spans : List Span := []
  isLocal : Bool := false
  isSure : Bool := false

/-- What a block says about its region. -/
inductive Verdict where
  /-- the search ends with these spans -/
  | done (spans : List Span)
  | next (s : Search)

/-- What the exit of a block says. A test that leaves the region leaves its operand as
the value. -/
def judgeExit (start stop i : NodeId) (s : Search) : Edit Verdict := do
  match ← exitNode i with
  | .test condition _ onFalse slot =>
    if onFalse == stop then
      let isComparison := match ← node condition with
        | .binary .. => true
        | _ => false
      let tested := slot.getD s.slot
      if isComparison then return .done s.spans
      else if s.slot < 0 ∧ tested ≥ 0 then
        return .next { s with slot := tested, kind := some .slot, isSure := true }
      else if s.slot ≠ tested then return .done s.spans
      else return .next { s with isSure := true }
    else return .next s
  | .jump .. =>
    if i == start && (← items i).isEmpty then return .done [] else return .next s
  | _ => return .next s

/-- What the last assignment of a block says: all blocks assign the same variable, and
the first block may also do something else. -/
def judgeAssignment (start i : NodeId) (s : Search) : Edit Verdict := do
  let isStart := i == start
  let unfit : Verdict := if isStart then .next s else .done s.spans
  let contents ← items i
  match contents.getLast? with
  | none => return .next s
  | some statement =>
    if !isStart && contents.length > 1 then return .done s.spans
    match ← node statement with
    | .assignment _ _ destinations =>
      match ← items destinations with
      | [d] =>
        match ← node d with
        | .identifier x =>
          match ← exitNode i with
          | .test .. => return unfit
          | _ =>
            if s.slot < 0 then
              if x.kind == .upvalue then return .done []
              return .next { s with
                slot := x.slot, kind := some x.kind, isLocal := s.isLocal || x.kind == .named }
            else if s.slot = x.slot then
              if x.kind == .upvalue then return .done []
              return .next { s with kind := some x.kind }
            else
              require (!isStart) "the first block of an expression assigns its variable"
              return .done []
        | _ => return unfit
      | _ => return unfit
    | _ => return unfit

/-- The conclusion of a search through all blocks of a region. -/
def conclude (start : NodeId) (body : List NodeId) (stop : NodeId) (s : Search) :
    Edit (List Span) := do
  if s.slot < 0 then return []
  let (terminators, _) ← splitTerminators body
  let isSure := s.isSure || terminators.isSome || !s.spans.isEmpty
  if !isSure && s.isLocal then return s.spans
  return s.spans ++ [⟨start, stop, s.slot, s.kind⟩]

/-- Searches the blocks from position `k` of `start :: body` on. `inner` looks for the
spans of the region that starts at a block. -/
def searchFrom (inner : NodeId → List NodeId → Edit (List Span)) (start : NodeId)
    (body : List NodeId) (stop : NodeId) : Nat → Nat → Search → Edit (List Span)
  | 0, _, s => conclude start body stop s
  | fuel + 1, k, s => do
    match (start :: body)[k]? with
    | none => conclude start body stop s
    | some i =>
      match ← inner i (body.drop k) with
      | first :: others =>
        let last ← farthest first others
        let k' ← positionOf (start :: body) last
        if k' ≤ k then return s.spans
        match ← exitNode last with
        | .test .. =>
          searchFrom inner start body stop fuel k' { s with spans := first :: others ++ s.spans }
        | _ => return s.spans
      | [] =>
        match ← judgeExit start stop i s with
        | .done spans => return spans
        | .next s =>
          match ← judgeAssignment start i s with
          | .done spans => return spans
          | .next s => searchFrom inner start body stop fuel (k + 1) s

/-- The spans of a region. Regions inside it have fewer blocks, so as much `depth` as
there are blocks suffices. -/
def findSpans : Nat → NodeId → List NodeId → NodeId → Edit (List Span)
  | 0, _, _, _ => throw .tooDeep
  | depth + 1, start, body, stop => do
    match ← assignedFlag? body with
    | some x =>
      if x.slot ≥ 0 then return [⟨start, stop, x.slot, some x.kind⟩]
      else search depth start body stop
    | none => search depth start body stop
where
  search (depth : Nat) (start : NodeId) (body : List NodeId) (stop : NodeId) :
      Edit (List Span) :=
    searchFrom (fun i rest => do
      match ← regionAt? (i :: rest) 0 .absent with
      | none => return []
      | some r => findSpans depth i r.body r.stop) start body stop (body.length + 1) 0 {}

/-- The spans of the regions from position `k` on, the outermost last within a region. -/
def spansFrom (blocks : List NodeId) : Nat → Nat → List Span → Edit (List Span)
  | 0, _, _ => throw .tooDeep
  | fuel + 1, k, found => do
    if k + 1 < blocks.length then
      let start ← atPosition blocks k
      if (← exitNode start).isFlow then spansFrom blocks fuel (k + 1) found
      else
        match ← regionAt? blocks k .absent with
        | none => throw .needsGoto
        | some r =>
          let spans ← findSpans (r.body.length + 1) start r.body r.stop
          require (spans.all (!found.contains ·)) "a region is found once"
          require (spans.Nodup) "a region is found once"
          match spans with
          | [] => spansFrom blocks fuel (k + 1) found
          | first :: others =>
            let last ← farthest first others
            let k' ← if last == r.stop then pure r.stopIndex else positionOf blocks last
            spansFrom blocks fuel k' (found ++ spans.reverse)
    else return found

def destinationSlots (destinations : NodeId) : Edit (List Int) := do
  let ns ← (← items destinations).mapM node
  return ns.filterMap fun
    | .identifier x => if x.kind == .slot then some x.slot else none
    | _ => none

def usedSlots (exit : NodeId) : Edit (List Int) := do
  let visitor : Visitor (List Int) := {
    enter := fun i => do
      match ← node i with
      | .identifier x => if x.kind == .slot then modifyOwn (x.slot :: ·)
      | _ => return () }
  let ((), slots) ← within [] (walkTree visitor exit)
  return slots

/-- Walks through statements from position `k` on, collecting the slots that those
before position `from` assign and then removing the slots that are assigned. Gives the
position at which none is left, or the end, and the slots that are left. -/
def splitFrom (start : Nat) : Nat → Nat → List Int → List NodeId → Edit (Nat × List Int)
  | _, split, known, [] => return (split, known)
  | k, split, known, i :: rest => do
    match ← node i with
    | .assignment _ _ destinations =>
      let slots ← destinationSlots destinations
      let known := if k < start then known ++ slots else known.filter (!slots.contains ·)
      if known.isEmpty then return (split, known)
      splitFrom start (k + 1) (k + 1) known rest
    | _ => splitFrom start (k + 1) (k + 1) known rest

/-- Where to split statements, of which those from `start` on follow an assignment to
`slot`: before the slots are assigned again. One past the end if the exit uses them. -/
def splitPosition (statements : List NodeId) (start : Nat) (exit : NodeId) (slot : Int) :
    Edit Nat := do
  let (split, known) ← splitFrom start 0 start [slot] statements
  if split < statements.length then return split
  match ← node exit with
  | .test .. =>
    let used ← usedSlots exit
    return if known.all used.contains then split + 1 else split
  | _ => return split

def assignedVariable (body : List NodeId) : Edit NodeId := do
  let single ← body.reverse.filterM fun i => return (← items i).length == 1
  match single with
  | [] => throw (.broken "an expression assigns a variable")
  | i :: _ =>
    match ← node (← firstItem i) with
    | .assignment _ _ destinations => firstItem destinations
    | _ => throw .noPart

/-- Appends the assignment of an expression to the block that starts it. -/
def assignExpression (start stop : NodeId) (body : List NodeId) : Edit Unit := do
  let target ← assignedVariable body
  let (terminators, operands) ← splitTerminators body
  let (yes, no) := terminators.getD (.absent, .absent)
  let value ← compile (start :: operands) ⟨stop, yes, no⟩
  let destination ← copyDeep target
  let expressions ← addList .expressions [value]
  let destinations ← addList .targets [destination]
  appendItem start (← add (.assignment (.other (-1)) expressions destinations))

/-- Turns a span into an assignment, which goes to the block where it is used. Gives
the blocks that are left and the blocks that were merged into others. -/
def resolveSpan (blocks : List NodeId) (merged : List (NodeId × NodeId)) (s : Span) :
    Edit (List NodeId × List (NodeId × NodeId)) := do
  let stop := ((merged.find? (·.1 == s.stop)).map (·.2)).getD s.stop
  let a ← positionOf blocks s.start
  let b ← positionOf blocks stop
  assignExpression s.start stop ((blocks.take b).drop (a + 1))
  let before ← items s.start
  let statements := before ++ (← items stop)
  let split ←
    if s.kind == some .slot then
      splitPosition statements before.length (← block stop).exit s.slot
    else pure before.length
  if split > statements.length then
    setItems stop statements
    setItems s.start []
    let blocks := blocks.take a ++ blocks.drop b
    replaceTargets blocks s.start stop
    Slots.inlineSlots stop
    setFlow s.start stop
    return (blocks, (s.start, stop) :: merged)
  else
    let blocks := blocks.take (a + 1) ++ blocks.drop b
    setItems s.start (statements.take split)
    setItems stop (statements.drop split)
    setFlow s.start stop
    Slots.inlineSlots s.start
    return (blocks, merged)

def resolveValues (blocks : List NodeId) : Edit (List NodeId) := do
  let spans ← spansFrom blocks (blocks.length + 1) 0 []
  let (blocks, _) ← spans.reverse.foldlM
    (fun (blocks, merged) s => resolveSpan blocks merged s) (blocks, [])
  return blocks

end LuaLift.Flow
