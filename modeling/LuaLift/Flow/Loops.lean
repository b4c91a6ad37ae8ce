import LuaLift.Flow.Condition

/-! # Loops

A jump back is the end of a loop, and the block that it leads to is its start. The
blocks between become the body of a loop statement. Jumps out of the body become
`break` statements. -/
namespace LuaLift.Flow
open Tree Pass

/-- The start of a loop, and the block after it. -/
abbrev Loop := NodeId × NodeId

/-- Where the condition of a `repeat` loop ends that may go back to `start`: the last
block that does, in a run of blocks without statements. Gives that block and its
position. -/
def repeatEnd (start first : NodeId) : List NodeId → Nat → NodeId × Nat → Edit (NodeId × Nat)
  | [], _, found => return found
  | i :: rest, k, found => do
    if i != first && !(← items i).isEmpty then return found
    match ← exitNode i with
    | .stop _ => return found
    | exit =>
      let target ← targetOf exit
      if (← indexOf target) < (← indexOf i) then
        if target == start then repeatEnd start first rest (k + 1) (i, k) else return found
      else repeatEnd start first rest (k + 1) found

/-- The loops that end at position `k` or later, of one kind: `repeat` loops end in a
test, all others in a jump. -/
def loopsFrom (blocks : List NodeId) (isRepeat : Bool) : Nat → Nat → Edit (List Loop)
  | 0, _ => return []
  | fuel + 1, k => do
    match blocks[k]? with
    | none => return []
    | some i =>
      match ← exitNode i with
      | .jump kind target _ =>
        if kind == .flow then loopsFrom blocks isRepeat fuel (k + 1)
        else if (← indexOf target) ≤ (← indexOf i) then
          require (!isRepeat) "jumps back are resolved before tests that lead back"
          require (k + 1 < blocks.length) "a block follows each loop"
          let next ← atPosition blocks ((k : Int) + 1)
          return (target, next) :: (← loopsFrom blocks isRepeat fuel (k + 1))
        else loopsFrom blocks isRepeat fuel (k + 1)
      | .test _ _ onFalse _ =>
        if !isRepeat then loopsFrom blocks isRepeat fuel (k + 1)
        else if (← indexOf onFalse) > (← indexOf i) then loopsFrom blocks isRepeat fuel (k + 1)
        else
          let (last, k') ← repeatEnd onFalse i (blocks.drop k) k (i, k)
          let next ← atPosition blocks ((← positionOf blocks last : Int) + 1)
          return (onFalse, next) :: (← loopsFrom blocks isRepeat fuel (k' + 1))
      | _ => loopsFrom blocks isRepeat fuel (k + 1)

/-- The loops of some blocks, the ones that start last first. -/
def findLoops (blocks : List NodeId) (isRepeat : Bool) : Edit (List Loop) := do
  let loops ← loopsFrom blocks isRepeat (blocks.length + 1) 0
  let keyed ← loops.mapM fun l => do return (← indexOf l.1, l)
  return ((keyed.mergeSort fun a b => a.1 ≤ b.1).map (·.2)).reverse

/-- The loops seen so far while jumps to a common start are sorted out. -/
structure Nesting where
  current : Option Loop := none
  currentStart : Int := -1
  outer : Option Loop := none
  outerStart : Int := -1
  /-- the loops that stay, newest first -/
  kept : List Loop := []

/-- A jump back to the start of a loop already seen is not a loop of its own: it leads
to the end of that loop's body. `list` holds the blocks. -/
def sortOut (list : NodeId) (n : Nesting) (l : Loop) : Edit Nesting := do
  let (start, stop) := l
  let startIndex ← indexOf start
  if startIndex == n.outerStart || startIndex == n.currentStart then
    let blocks ← items list
    let lastInBody ← atPosition blocks ((← positionOf blocks stop : Int) - 1)
    match ← exitNode lastInBody with
    | .jump _ target _ =>
      require (target == start) "a loop ends in a jump to its start"
      if startIndex == n.outerStart then
        match n.outer with
        | none => throw (.broken "an outer loop has an end")
        | some (_, outerStop) =>
          let k ← positionOf blocks outerStop
          setTarget lastInBody (← atPosition blocks ((k : Int) - 1))
          require ((← atPosition blocks ((k : Int) - 2)) != stop) "a loop ends before the outer one"
      else
        match n.current with
        | none => throw (.broken "a loop has an end")
        | some (_, currentStop) =>
          let k ← positionOf blocks currentStop
          let last ← atPosition blocks ((k : Int) - 1)
          if last == stop then
            let added ← followingBlock stop
            let exit := (← block stop).exit
            modifyBlock added ({ · with exit := exit })
            setFlow stop added
            setItems list (blocks.take k ++ added :: blocks.drop k)
            setTarget lastInBody added
          else setTarget lastInBody last
      return n
    | _ => throw (.broken "a loop ends in a jump to its start")
  else
    let isInner ← match n.current with
      | some (_, currentStop) =>
        if n.currentStart < startIndex then
          do pure (decide ((← indexOf currentStop) ≥ (← indexOf stop)))
        else pure false
      | none => pure false
    return {
      current := some l, currentStart := startIndex
      outer := if isInner then n.current else none
      outerStart := if isInner then n.currentStart else -1
      kept := l :: n.kept }

/-- Adds an end to the body of a `while` loop, to which jumps to the start of the loop
lead instead. -/
def closeBody (body : List NodeId) (start : NodeId) : Edit (List NodeId) := do
  match body.getLast? with
  | none => throw .outside
  | some final =>
    let last ← followingBlock final
    let exit := (← block final).exit
    match ← node exit with
    | .test c t _ s => setNode exit (.test c t last s)
    | _ => setFlow final last
    setStop last
    body.forM fun i => do
      if (← targetOfBlock i) == start then setTarget i last
    return body ++ [last]

/-- Makes the tests at the start of a loop that lead to an outer loop lead to the end of
this one. -/
def redirectTests (startIndex : Int) (stop : NodeId) : List NodeId → Edit Unit
  | [] => return ()
  | i :: rest => do
    unless (← items i).isEmpty do return ()
    if (← indexOf (← targetOfBlock i)) < startIndex then setTarget i stop
    redirectTests startIndex stop rest

/-- The number of blocks at the start of a loop that belong to its condition: up to the
first one that flows on, and all but the last if there is none. -/
def conditionLength : List NodeId → Nat → Edit Nat
  | [], k => return k - 1
  | i :: rest, k => do
    require (← items i).isEmpty "the condition of a loop has no statements"
    if (← exitNode i).isFlow then return k else conditionLength rest (k + 1)

def whileLoop (start stop : NodeId) (body : List NodeId) : Edit (NodeId × NodeId) := do
  let (condition, body) ←
    if (← exitNode start).isFlow then do pure (← add (.primitive .true), body)
    else do
      if body.isEmpty then throw .unset
      let k ← conditionLength body 0
      let tests := start :: body.take k
      let rest := body.drop k
      redirectTests (← indexOf start) stop tests
      let yes ← atPosition rest 0
      pure (← compile tests ⟨.absent, yes, stop⟩, rest)
  let body ← closeBody body start
  setFlow start (← atPosition body 0)
  let statements ← addList .statements body
  return (← add (.whileLoop condition statements), statements)

/-- The position of the last block of a body that has statements or flows into the next
one, which is then the position after it; -1 if there is none. -/
def bodyEnd : List NodeId → Nat → Int → Edit Int
  | [], _, found => return found
  | i :: rest, k, found => do
    if (← exitNode i).isFlow then bodyEnd rest (k + 1) (k + 1)
    else if (← items i).isEmpty then bodyEnd rest (k + 1) found
    else bodyEnd rest (k + 1) k

def repeatLoop (start : NodeId) (body : List NodeId) : Edit (NodeId × NodeId) := do
  let k ← bodyEnd body 0 (-1)
  let tests := if k < 0 then body.drop (body.length - 1) else body.drop k.toNat
  let inside := body.take (k + 1).toNat
  match tests with
  | [] => throw (.broken "a repeat loop has a condition")
  | first :: others =>
    let isJump := (← exitNode first).isJump
    if isJump then
      let last ← atPosition inside (-1)
      appendItem last (← add .breakLoop)
    let tests := if isJump then others else tests
    let no ← atPosition inside 0
    let yes ← match ← exitNode (← atPosition tests (-1)) with
      | .test _ onTrue _ _ => pure onTrue
      | _ => throw .noPart
    let condition ← compile tests ⟨.absent, yes, no⟩
    let copy ← addCell (← cell start)
    setItems start []
    match inside with
    | _ :: second :: _ => setFlow copy second
    | _ => setStop copy
    setFlow start copy
    let statements ← addList .statements (copy :: inside.drop 1)
    return (← add (.repeatLoop condition statements), statements)

/-- The statement of a loop whose body is given, and the list of its blocks. -/
def loopStatement (start stop : NodeId) (body : List NodeId) : Edit (NodeId × NodeId) := do
  let last := body.getLast?.getD start
  let lastExit ← exitNode last
  let jumpsBack := fun (exit : Node) => match exit with
    | .jump _ target _ => target == start
    | _ => false
  let forLoop := fun (statement : NodeId → Node) => do
    require (jumpsBack lastExit) "a loop ends in a jump to its start"
    let statements ← addList .statements body
    let first ← atPosition body 0
    let loop ← addAt (← block first).first (statement statements)
    setFlow start first
    return (loop, statements)
  match ← exitNode start with
  | .iterate targets controls _ _ => forLoop (.iteratorFor controls targets ·)
  | .count index controls _ _ => forLoop (.numericFor index controls ·)
  | _ =>
    match lastExit with
    | .jump _ target _ =>
      require (target == start) "a loop ends in a jump to its start"
      whileLoop start stop body
    | .test _ _ onFalse _ =>
      require (onFalse == start) "a loop ends in a test that leads to its start"
      repeatLoop start body
    | _ => throw (.broken "a loop ends in a jump or a test")

/-- The blocks that a chain of jumps from a block passes through. Without a cycle of
jumps there are no more than blocks in the store. -/
def jumpChain : Nat → NodeId → Edit (List NodeId)
  | 0, _ => throw .tooDeep
  | fuel + 1, i => do
    match ← exitNode i with
    | .jump .jump target _ => return i :: (← jumpChain fuel target)
    | _ => return [i]

/-- Turns jumps out of a loop into `break` statements. Gives the blocks of the body and
those that end in `break`. -/
def addBreaks (inside ends : List NodeId) : List NodeId → Edit (List NodeId × List NodeId)
  | [] => return ([], [])
  | i :: rest => do
    let leaves ← match ← exitNode i with
      | .jump _ target _ => pure (if inside.contains target then none else some target)
      | _ => pure none
    match leaves with
    | none =>
      let (blocks, breaks) ← addBreaks inside ends rest
      return (i :: blocks, breaks)
    | some target =>
      if !ends.contains target then throw .strayExit
      let b ← block i
      let (here, last) ←
        if b.entries != 0 then do
          let added ← followingBlock i
          setFlow i added
          pure ([i, added], added)
        else pure ([i], i)
      appendItem last (← add .breakLoop)
      match rest with
      | [] => setStop last
      | next :: _ => setFlow last next
      let (blocks, breaks) ← addBreaks inside ends rest
      return (here ++ blocks, last :: breaks)

/-- State of the walk from the end of a body to its start that gives tests that leave
the loop a `break` to lead to. -/
structure BreakUse where
  /-- blocks that end in `break`, nearest first; `true` if one test only may lead there -/
  available : List (Bool × NodeId) := []
  pending : Option NodeId := none
  /-- tests that may get another `break`, newest first -/
  waiting : List NodeId := []

/-- Makes a test that leaves the loop lead to a `break`. -/
def useBreak (inside ends breaks : List NodeId) (u : BreakUse) (i : NodeId) : Edit BreakUse := do
  if breaks.contains i then
    let once := (← block i).entries == 0
    return { u with available := (once, i) :: u.available, pending := none }
  let exit ← exitNode i
  match exit with
  | .test _ _ target _ =>
    if inside.contains target then return u
    if !ends.contains target then throw .strayExit
    let u ← match u.pending with
      | some b => do
        setTarget i b
        pure { u with waiting := i :: u.waiting }
      | none =>
        match u.available with
        | [] => throw (.broken "a test that leaves a loop leads to a break")
        | (once, b) :: rest => do
          setTarget i b
          pure (if once then { available := rest, pending := some b, waiting := [] }
            else { u with waiting := i :: u.waiting })
    return if (← items i).isEmpty then u else { u with pending := none }
  | _ => return if exit.isFlow then { u with pending := none } else u

/-- Gives the tests that wait the breaks that are left, in pairs. -/
def pairBreaks : List NodeId → List (Bool × NodeId) → Edit Unit
  | i :: is, (_, b) :: bs => do
    setTarget i b
    pairBreaks is bs
  | _, _ => return ()

/-- Turns the exits of a loop into `break` statements. `list` holds the body. -/
def resolveBreaks (start list next : NodeId) : Edit Unit := do
  let body ← items list
  let inside := start :: body
  let ends ← jumpChain ((← get).store.cells.size + 1) next
  let (blocks, breaks) ← addBreaks inside ends body
  setItems list blocks
  if breaks.isEmpty then return ()
  let u ← blocks.reverse.foldlM (useBreak inside ends breaks) {}
  pairBreaks u.waiting (u.available.dropWhile (!·.1))

def resolveLoop (isRepeat : Bool) (blocks : List NodeId) (l : Loop) : Edit (List NodeId) := do
  let (start, stop) := l
  let a ← positionOf blocks start
  let b ← positionOf blocks stop
  let (loop, list) ← loopStatement start stop (between blocks (if isRepeat then a else a + 1) b)
  let body ← items list
  let first ← atPosition body 0
  let last ← atPosition body (-1)
  let exit ← add (.jump .flow stop false)
  let loopBlock ← add (.block {
    index := (← indexOf start) + 1, exit, contents := [loop]
    first := (← block first).first, last := (← block last).last })
  replaceTargets blocks first loopBlock
  setStop last
  resolveBreaks start list stop
  return blocks.take (a + 1) ++ loopBlock :: blocks.drop b

def resolveLoops (isRepeat : Bool) (list : NodeId) : Edit (List NodeId) := do
  let blocks ← items list
  match ← findLoops blocks isRepeat with
  | [] => return blocks
  | loops =>
    let nesting ← loops.foldlM (sortOut list) {}
    nesting.kept.reverse.foldlM (resolveLoop isRepeat) (← items list)

end LuaLift.Flow
