import LuaLift.Flow.Exits
import LuaLift.Tree.Copy

/-! # Conditions of several blocks

A condition made of `and` and `or` is a run of blocks that each test one operand. The
exits lead to other operands or to the terminators: the block `yes` that is reached
when the condition holds, the block `no` when it fails, and, for an expression that is
assigned, the block `stop` after it.

A block whose exit leads to a terminator ends an operand of the whole condition, and
the terminator tells the operator after it. What lies between two such blocks is an
operand with terminators of its own. -/
namespace LuaLift.Flow
open Tree Pass

/-- Where a condition leads. A terminator that it does not have is absent. -/
structure Terminators where
  stop : NodeId
  yes : NodeId
  no : NodeId

/-- A condition: an expression, or operands with the operators after them. -/
inductive Term where
  | leaf (expression : NodeId)
  | chain (links : List (Term × BinaryOp)) (last : Term)

/-- The comparison that holds when another fails. -/
def opposite (op : BinaryOp) : Except Fault BinaryOp :=
  match op with
  | .less => .ok .greaterEqual
  | .greater => .ok .lessEqual
  | .lessEqual => .ok .greater
  | .greaterEqual => .ok .less
  | .notEqual => .ok .equal
  | .equal => .ok .notEqual
  | o => if o.code < -100 ∨ o.code ≥ 100 then .error .outside
    else .error (.broken "only a comparison has an opposite")

def invert (i : NodeId) : Edit NodeId := do
  match ← node i with
  | .unary _ operand => return operand
  | .binary .. =>
    let copy ← copyDeep i
    match ← node copy with
    | .binary op left right =>
      match opposite op with
      | .ok op' => setNode copy (.binary op' left right)
      | .error e => throw e
      return copy
    | _ => return copy
  | _ => add (.unary .not i)

/-- Whether an exit is taken when its operand holds: it leads to `yes`, or it leaves an
assigned expression on a `not`. -/
def isInverted (exit : Node) (t : Terminators) : Edit Bool := do
  match exit with
  | .jump _ target _ => return target == t.stop
  | .test condition _ onFalse _ =>
    if onFalse == t.yes then return true
    else if onFalse == t.stop then
      match ← node condition with
      | .binary .. => throw (.broken "a comparison does not end an assigned expression")
      | .unary op _ => return op == .not
      | _ => return false
    else return false
  | _ => throw .noPart

def expressionsOf (statement : NodeId) : Edit NodeId := do
  match ← node statement with
  | .assignment _ es _ => return es
  | .numericFor _ es _ => return es
  | .iteratorFor es _ _ => return es
  | _ => throw .noPart

def assignedValue (statement : NodeId) : Edit NodeId := do
  match ← node statement with
  | .assignment _ es _ => firstItem es
  | _ => throw (.broken "a block of an expression ends in an assignment")

/-- The value that a block assigns last, if it has statements. -/
def lastValue? (i : NodeId) : Edit (Option NodeId) := do
  match (← items i).getLast? with
  | none => return none
  | some statement => return some (← assignedValue statement)

/-- As `lastValue?`, and takes the assignment out of the block. -/
def takeLastValue (i : NodeId) : Edit NodeId := do
  let xs ← items i
  match xs.getLast? with
  | none => throw .outside
  | some statement =>
    setItems i xs.dropLast
    assignedValue statement

/-- Whether a value counts as true where it ends an operand. -/
def Literal.isTrue : Literal → Bool
  | .number n => !n.isZero
  | _ => true

/-- The operator after an operand that ends in block `i`. -/
def operatorAfter (i : NodeId) (t : Terminators) : Edit BinaryOp := do
  let exit ← exitNode i
  let holds ← match exit with
    | .jump _ target _ => do
      match ← lastValue? i with
      | none => pure (target == t.yes)
      | some value =>
        match ← node value with
        | .constant _ v => pure (Literal.isTrue v)
        | .binary .. | .identifier _ => pure true
        | .primitive k => pure (k == .true)
        | _ => throw (.broken "an operand ends in a value of known truth")
    | _ => isInverted exit t
  return if holds then .or else .and

/-- The part of a list from position `a` up to but not including `b`. -/
def between (xs : List NodeId) (a b : Nat) : List NodeId := (xs.take b).drop a

/-- The position of the last block of a run that starts at position `i`: blocks that
lead to the same terminator in the same sense belong together. -/
def extendRun (body : List NodeId) (t : Terminators) (target : NodeId) : Nat → Nat → Edit Nat
  | 0, i => return i
  | fuel + 1, i => do
    if i + 2 < body.length then
      let next ← atPosition body (i + 1)
      let nextExit ← exitNode next
      if (← targetOf nextExit) != target then return i
      let nextInverted ← isInverted nextExit t
      let thisInverted ← isInverted (← exitNode (← atPosition body i)) t
      if nextInverted != thisInverted then return i
      extendRun body t target fuel (i + 1)
    else return i

/-- The terminators of an operand that ends in block `last`, before block `next`. -/
def operandTerminators (op : BinaryOp) (last next : NodeId) : Edit Terminators := do
  let (first, second) ← match ← exitNode last with
    | .jump _ target _ => pure (target, next)
    | .test _ onTrue onFalse _ => pure (onFalse, onTrue)
    | _ => throw .noPart
  return if op == .or then ⟨.absent, first, second⟩ else ⟨.absent, second, first⟩

def lastOperand (i : NodeId) (t : Terminators) : Edit NodeId := do
  let exit ← exitNode i
  match exit with
  | .test condition _ _ _ =>
    if ← isInverted exit t then invert condition else return condition
  | .stop _ | .jump .. =>
    match ← lastValue? i with
    | some value => return value
    | none =>
      match exit with
      | .jump _ target _ => add (.primitive (if target == t.yes then .true else .false))
      | _ => throw .noPart
  | _ => throw (.broken "a condition ends in a test, a jump or the end")

def terminatorIndex (t : Terminators) : Edit Int := do
  if t.yes != .absent then
    let yes ← indexOf t.yes
    let inner := min yes (← indexOf t.no)
    if t.stop != .absent then return min (← indexOf t.stop) inner else return inner
  else
    require (t.stop != .absent) "a condition has a terminator"
    indexOf t.stop

def Terminators.contains (t : Terminators) (i : NodeId) : Bool :=
  i == t.yes || i == t.no || i == t.stop

/-- The end of the operand that starts at position `start`, seen from position `i`:
its first position and the one after it. `none` if it does not end there. -/
def operandAt (body : List NodeId) (t : Terminators) (limit : Int) (i start : Nat) :
    Edit (Option (Nat × Nat)) := do
  let target ← targetOfBlock (← atPosition body i)
  if (← indexOf target) < limit then
    if i != start then return none
    let k ← positionOf body target
    let lastTarget ← targetOfBlock (← atPosition body ((k : Int) - 1))
    if (← indexOf lastTarget) < limit then return none
    require (t.contains lastTarget) "an operand leads to a terminator"
    return some (i, k)
  else
    require (t.contains target) "an operand leads to a terminator"
    return some (start, (← extendRun body t target body.length i) + 1)

/-- Operands with the operators after them, and the last operand. -/
abbrev Terms := List (Term × BinaryOp) × NodeId

/-- An operand: the condition of its only block, or a condition of its own, which
`inner` takes apart. -/
def operandTerm (inner : List NodeId → Terminators → Edit Terms) (operand : List NodeId)
    (op : BinaryOp) (last next : NodeId) (t : Terminators) : Edit Term := do
  if operand.length == 1 then
    let exit ← exitNode last
    match exit with
    | .jump .. => return .leaf (← takeLastValue last)
    | _ =>
      let inverted ← isInverted exit t
      match exit with
      | .test condition _ _ _ =>
        return .leaf (← if inverted then invert condition else pure condition)
      | _ => throw .noPart
  else
    let (links, expression) ← inner operand (← operandTerminators op last next)
    return .chain links (.leaf expression)

/-- The operands from position `i` on, the last one apart; the current one starts at
`start`. Each step moves on, so as much `fuel` as there are blocks suffices. -/
def termsFrom (inner : List NodeId → Terminators → Edit Terms) (body : List NodeId)
    (t : Terminators) (limit : Int) : Nat → Nat → Nat → Edit (List (Term × BinaryOp))
  | 0, _, _ => return []
  | fuel + 1, i, start => do
    if i + 1 < body.length then
      match ← operandAt body t limit i start with
      | none => termsFrom inner body t limit fuel (i + 1) start
      | some (a, b) =>
        let operand := between body a b
        match operand.getLast? with
        | none => throw .outside
        | some last =>
          let k ← positionOf body last
          let next ← atPosition body ((k : Int) + 1)
          let op ← operatorAfter last t
          let term ← operandTerm inner operand op last next t
          return (term, op) :: (← termsFrom inner body t limit fuel (k + 1) (k + 1))
    else return []

/-- Takes a condition apart. The blocks of an operand are fewer than those of the
condition, so as much `depth` as there are blocks suffices. -/
def terms : Nat → List NodeId → Terminators → Edit Terms
  | 0, _, _ => throw .tooDeep
  | depth + 1, body, t => do
    let limit ← terminatorIndex t
    let links ← termsFrom (terms depth) body t limit body.length 0 0
    match body.getLast? with
    | none => throw .outside
    | some last => return (links, ← lastOperand last t)

mutual

/-- The expression of a condition. Operators of a chain group to the right. -/
def assemble : Term → Edit NodeId
  | .leaf i => return i
  | .chain links last => do
    if links.isEmpty then throw .outside
    assembleLinks links (← assemble last)

def assembleLinks : List (Term × BinaryOp) → NodeId → Edit NodeId
  | [], last => return last
  | (t, op) :: rest, last => do
    let right ← assembleLinks rest last
    let left ← assemble t
    add (.binary op left right)

end

/-- In a chain that starts with `and`, what comes from the first `or` on is an operand
of its own. -/
def explicit (links : List (Term × BinaryOp)) (last : NodeId) : Term :=
  let (ands, rest) := links.span (·.2 == .and)
  if ands.isEmpty || rest.isEmpty then .chain links (.leaf last)
  else .chain ands (.chain rest (.leaf last))

def compile (body : List NodeId) (t : Terminators) : Edit NodeId := do
  let (links, last) ← terms (body.length + 1) body t
  if links.isEmpty then return last else assemble (explicit links last)

/-- The blocks that assign true and false at the end of an expression, and the blocks
before them. -/
def splitTerminators (body : List NodeId) : Edit (Option (NodeId × NodeId) × List NodeId) := do
  match body.reverse with
  | last :: prev :: before =>
    match ← items last with
    | [statement] =>
      match ← node statement with
      | .assignment .. =>
        match ← node (← assignedValue statement) with
        | .primitive .true =>
          match ← items prev with
          | [statement'] =>
            match ← node (← firstItem (← expressionsOf statement')) with
            | .primitive .false => return (some (last, prev), before.reverse)
            | _ => return (none, body)
          | _ => return (none, body)
        | _ => return (none, body)
      | _ => return (none, body)
    | _ => return (none, body)
  | _ => return (none, body)

end LuaLift.Flow
