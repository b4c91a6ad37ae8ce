import LuaLift.Tree.Store

/-! # Nodes for operands

Slots, upvalues and constants of a function as nodes. -/
namespace LuaLift.Lift
open Bytecode Tree Pass

def operand (o : Option Int) : Edit Int :=
  match o with
  | some v => return v
  | none => throw .noPart

def slot (address index : Int) : Edit NodeId :=
  addAt address (.identifier { kind := .slot, slot := index })

def slots (address first last : Int) : Edit (List NodeId) :=
  (List.range (last - first + 1).toNat).mapM fun (k : Nat) => slot address (first + k)

/-- An upvalue. One without a name looks like the slot of the same number. -/
def upvalue (p : Prototype) (address index : Int) : Edit NodeId :=
  match p.debug.upvalueName? index with
  | some name => addAt address (.identifier { name := some name, kind := .upvalue, slot := index })
  | none => slot address index

def literal (value : Int) : Edit NodeId := add (.constant .integer (.number (.int value)))

def numberNode : Number → Edit NodeId
  | .int v => literal v
  | n => add (.constant .float (.number n))

def numericConstant (p : Prototype) (index : Int) : Edit NodeId := do
  numberNode (← atPosition p.numbers index)

def literalOf : Complex Prototype → Literal
  | .text s => .text s
  | .number n => .number n
  | .pair re im => .pair re im
  | .table _ | .child _ => .object

def complexConstant (p : Prototype) (kind : ConstantKind) (index : Int) : Edit NodeId := do
  add (.constant kind (literalOf (← atPosition p.complex index)))

def textConstant (p : Prototype) (index : Int) : Edit NodeId := complexConstant p .text index

/-- The primitive with an operand value: 0 is nil, 1 false and 2 true. -/
def primitiveNode (value : Int) : Edit NodeId :=
  if value = 2 then add (.primitive .true)
  else if value = 1 then add (.primitive .false)
  else if value = 0 then add (.primitive .nil)
  else throw (.broken "a primitive operand is nil, false or true")

def constantOperand (p : Prototype) (i : Instruction) : Edit NodeId := do
  match i.shape.cd with
  | some .text => textConstant p (← operand i.cd)
  | some .cdata => complexConstant p .cdata (← operand i.cd)
  | some .signedLiteral =>
    let v ← operand i.cd
    literal (if v / 0x8000 % 2 = 1 then v - 0x10000 else v)
  | some .literal => literal (← operand i.cd)
  | some .number => numericConstant p (← operand i.cd)
  | some .primitive => primitiveNode (← operand i.cd)
  | _ => throw (.broken "a constant operand is a constant")

/-- The element of the table in slot B that operand C names. -/
def tableElement (p : Prototype) (address : Int) (i : Instruction) : Edit NodeId := do
  let table ← slot address (← operand i.b)
  let key ← match i.shape.cd with
    | some .var => slot address (← operand i.cd)
    | _ => constantOperand p i
  add (.element table key)

def globalVariable (p : Prototype) (index : Int) : Edit NodeId := do
  let table ← add (.identifier { name := some "_env", kind := .builtin })
  let key ← textConstant p index
  add (.element table key)

def tableItem : TableItem → Edit NodeId
  | .nil => add (.primitive .nil)
  | .bool true => add (.primitive .true)
  | .bool false => add (.primitive .false)
  | .number n => numberNode n
  | .text s => add (.constant .text (.text s))

def tableCopy (p : Prototype) (index : Int) : Edit NodeId := do
  match ← atPosition p.complex index with
  | .table t =>
    let array ← t.array.mapM fun x => do add (.arrayRecord (← tableItem x))
    let records ← t.entries.mapM fun (k, v) => do
      let key ← tableItem k
      let value ← tableItem v
      add (.tableRecord key value)
    let array ← addList .records array
    let records ← addList .records records
    add (.table array records)
  | _ => throw .noPart

end LuaLift.Lift
