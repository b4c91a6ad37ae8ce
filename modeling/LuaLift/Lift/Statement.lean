import LuaLift.Lift.Expression

/-! # Statements of instructions -/
namespace LuaLift.Lift
open Bytecode Tree Pass

def assignment (destinations expressions : List NodeId) : Edit NodeId := do
  let expressions ← addList .expressions expressions
  let destinations ← addList .targets destinations
  add (.assignment (.other (-1)) expressions destinations)

/-- The slots from `first` to `last` as destinations, of which there is at least one. -/
def range (address first last : Int) : Edit (List NodeId) := do
  require (first ≤ last) "a range of destinations is not empty"
  slots address first last

/-- The value that an instruction with one destination assigns. `child` makes a
function of a prototype. -/
def assignedValue (child : Prototype → Edit NodeId) (p : Prototype) (address : Int)
    (i : Instruction) : Edit NodeId := do
  let upTo := fun (o : Opcode) => i.code ≤ o.number
  match i.meaning with
  | some .mov | some .not | some .unm | some .len => unaryExpression address i
  | some .cat => concatExpression address i
  | some .uget => upvalue p address (← operand i.cd)
  | some .usetv => slot address (← operand i.cd)
  | some .fnew =>
    match ← atPosition p.complex (← operand i.cd) with
    | .child q => child q
    | _ => throw .noPart
  | some .tnew =>
    let array ← addList .records
    let records ← addList .records
    add (.table array records)
  | some .tdup => tableCopy p (← operand i.cd)
  | some .gget => globalVariable p (← operand i.cd)
  | _ =>
    if upTo .pow then binaryExpression p address i
    else if upTo .usetp then constantOperand p i
    else if upTo .tgetr then tableElement p address i
    else throw (.broken "an instruction with a destination assigns")

def variableAssignment (child : Prototype → Edit NodeId) (p : Prototype) (address : Int)
    (i : Instruction) : Edit NodeId := do
  let value ← assignedValue child p address i
  let a ← operand i.a
  let destination ←
    if i.shape.a = some .dst then slot address a else upvalue p address a
  assignment [destination] [value]

/-- The arguments of a call: the slots after the function's, and for an open call
the results of unknown number. -/
def callArguments (address : Int) (i : Instruction) : Edit (List NodeId) := do
  let a ← operand i.a
  let isOpen := i.meaning = some .callm ∨ i.meaning = some .callmt
  let last := a + (← operand i.cd)
  if isOpen then
    let known ← slots address (a + 1) last
    return known ++ [← add .multres]
  else slots address (a + 1) (last - 1)

def callStatement (address : Int) (i : Instruction) : Edit NodeId := do
  let a ← operand i.a
  let function ← slot address a
  let arguments ← addList .expressions (← callArguments address i)
  let call ← add (.call function arguments)
  if i.code ≤ Opcode.call.number then
    let b ← operand i.b
    if b = 0 then assignment [← add .multres] [call]
    else if b = 1 then return call
    else assignment (← range address a (a + b - 2)) [call]
  else add (.ret (← addList .expressions [call]))

def varargStatement (address : Int) (i : Instruction) : Edit NodeId := do
  let a ← operand i.a
  let last := a + (← operand i.b) - 2
  if last < a then
    let destination ← add .multres
    assignment [destination] [← add .vararg]
  else
    let destinations ← range address a last
    assignment destinations [← add .vararg]

def returnStatement (address : Int) (i : Instruction) : Edit NodeId := do
  let a ← operand i.a
  let last := a + (← operand i.cd) - 1
  if i.meaning = some .retm then
    let known ← slots address a last
    add (.ret (← addList .expressions (known ++ [← add .multres])))
  else add (.ret (← addList .expressions (← slots address a (last - 1))))

def statement (child : Prototype → Edit NodeId) (p : Prototype) (address : Int)
    (i : Instruction) : Edit (Option NodeId) := do
  if i.shape.a = some .dst ∨ i.shape.a = some .upvalue then
    return some (← variableAssignment child p address i)
  match i.meaning with
  | some .knil =>
    let a ← operand i.a
    let destinations ← range address a (← operand i.cd)
    return some (← assignment destinations [← add (.primitive .nil)])
  | some .gset =>
    let destination ← globalVariable p (← operand i.cd)
    return some (← assignment [destination] [← slot address (← operand i.a)])
  | some .tsetv | some .tsets | some .tsetb | some .tsetr =>
    let destination ← tableElement p address i
    return some (← assignment [destination] [← slot address (← operand i.a)])
  | some .tsetm =>
    let a ← operand i.a
    let key ← add .multres
    let table ← slot address (a - 1)
    let destination ← add (.element table key)
    return some (← assignment [destination] [← add .multres])
  | some .callm | some .call | some .callmt | some .callt => return some (← callStatement address i)
  | some .varg => return some (← varargStatement address i)
  | some .retm | some .ret | some .ret0 | some .ret1 => return some (← returnStatement address i)
  | some .uclo | some .loop | some .iloop | some .jloop => return none
  | _ => throw (.broken "an instruction inside a block is a statement")

end LuaLift.Lift
