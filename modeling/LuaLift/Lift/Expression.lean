import LuaLift.Lift.Operand

/-! # Expressions of instructions -/
namespace LuaLift.Lift
open Bytecode Tree Pass

/-- The operator of an arithmetic instruction: each family of instructions has the
same five operators in the same order. -/
def arithmeticOp (code : Nat) : BinaryOp :=
  if code = Opcode.pow.number then .pow
  else match ((code : Int) - Opcode.addvn.number) % 5 with
    | 0 => .add
    | 1 => .subtract
    | 2 => .multiply
    | 3 => .divide
    | _ => .mod

def binaryExpression (p : Prototype) (address : Int) (i : Instruction) : Edit NodeId := do
  let op := arithmeticOp i.code
  match i.shape.b, i.shape.cd with
  | some .var, some .var =>
    let left ← slot address (← operand i.b)
    let right ← slot address (← operand i.cd)
    add (.binary op left right)
  | some .var, _ =>
    let left ← slot address (← operand i.b)
    let right ← numericConstant p (← operand i.cd)
    add (.binary op left right)
  | _, some .var =>
    let right ← slot address (← operand i.b)
    let left ← numericConstant p (← operand i.cd)
    add (.binary op left right)
  | _, _ => throw (.broken "an operand of an arithmetic instruction is a slot")

/-- Joins the slots B to C, from the left. -/
def concatExpression (address : Int) (i : Instruction) : Edit NodeId := do
  let b ← operand i.b
  let left ← slot address b
  let right ← slot address (b + 1)
  let first ← add (.binary .concat left right)
  let last ← operand i.cd
  (List.range (last - (b + 2) + 1).toNat).foldlM (fun acc (k : Nat) => do
    let right ← slot address (b + 2 + k)
    add (.binary .concat acc right)) first

/-- The operator that a comparison leaves when it does not jump: the opposite one. -/
def comparisonOp : Opcode → Option BinaryOp
  | .islt => some .greaterEqual
  | .isge => some .less
  | .isle => some .greater
  | .isgt => some .lessEqual
  | .iseqv | .iseqs | .iseqn | .iseqp => some .notEqual
  | .isnev | .isnes | .isnen | .isnep => some .equal
  | _ => none

def comparison (p : Prototype) (address : Int) (i : Instruction) : Edit NodeId := do
  let left ← slot address (← operand i.a)
  let cd ← operand i.cd
  let right ← match i.meaning with
    | some .iseqs | some .isnes => textConstant p cd
    | some .iseqn | some .isnen => numericConstant p cd
    | some .iseqp | some .isnep => primitiveNode cd
    | _ => slot address cd
  match i.meaning.bind comparisonOp with
  | some op => add (.binary op left right)
  | none => throw (.broken "a comparison has an operator")

/-- The operand D of a test or of a unary instruction, with its operator. A test
that jumps on truth leaves the opposite. -/
def unaryExpression (address : Int) (i : Instruction) : Edit NodeId := do
  let x ← slot address (← operand i.cd)
  match i.meaning with
  | some .isfc | some .isf | some .mov => return x
  | some .istc | some .ist | some .not => add (.unary .not x)
  | some .unm => add (.unary .minus x)
  | some .istype => add (.unary .toText x)
  | some .isnum => add (.unary .toNumber x)
  | some .len => add (.unary .length x)
  | _ => throw (.broken "a unary instruction has an operator")

end LuaLift.Lift
