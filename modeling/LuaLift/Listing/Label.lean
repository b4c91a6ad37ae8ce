import LuaLift.Fault
import LuaLift.Bytecode.Prototype

/-! # How a listing shows operands

A slot is shown by the name of what it holds: the local variable that lives in it, or
else the global, field or upvalue that an earlier instruction put there. -/
namespace LuaLift.Listing
open Bytecode

inductive Label where
  | absent
  | text (s : String)
  /-- a constant that is not text, by its text -/
  | constant (s : String)
deriving DecidableEq, Repr, Inhabited

def Label.plain : Label → String
  | .absent => "None"
  | .text s | .constant s => s

def Label.asText : Label → Except Fault String
  | .text s => .ok s
  | _ => .error .illTyped

/-- What a slot is found to hold. -/
inductive Holding where
  | unknown
  | text (s : String)
  | constant (c : Complex Prototype)
  /-- what another slot holds at an earlier address -/
  | copyOf (address : Nat) (slot : Int)

def element {α : Type} (xs : List α) (i : Int) : Except Fault α :=
  match at? xs i with
  | some x => .ok x
  | none => .error .outside

def present (o : Option Int) : Except Fault Int :=
  match o with
  | some v => .ok v
  | none => .error .noPart

def slotText (slot : Int) : String := s!"slot{slot}"

/-- An upvalue, by its number and its name. -/
def upvalueText (p : Prototype) (index : Int) : Except Fault String :=
  match p.debug.upvalueName? index with
  | some name => .ok s!"uv{index}\"{name}\""
  | none => .error .illTyped

/-- The name of the variable in a slot. Variables without a name of their own have
names in angle brackets, which follow the slot. -/
def variableText (v : Variable) (slot : Int) : Except Fault String :=
  match v.name.toList with
  | [] => .error .outside
  | '<' :: _ => .ok (slotText slot ++ v.name)
  | _ => .ok v.name

/-- Whether an instruction overwrites a slot as one of a range that starts at operand A. -/
def overwritesRange (i : Instruction) (slot : Int) : Except Fault Bool := do
  if slot < (← present i.a) then return false
  if i.meaning = some .knil then return true
  return slot ≤ (← present i.cd)

/-- A field of what is found to be a table. -/
def fieldText (table : Holding) (key : Complex Prototype) : Except Fault String :=
  match table, key with
  | .unknown, .text k => .ok ("<unknown table>." ++ k)
  | .text t, .text k | .constant (.text t), .text k => .ok (t ++ "." ++ k)
  | _, _ => .error .illTyped

/-- What a slot holds behind some instructions, given with the nearest first. -/
def holdingAfter (p : Prototype) : List Instruction → Int → Except Fault Holding
  | [], _ => .ok .unknown
  | i :: before, slot => do
    if i.shape.a = some .base then
      if ← overwritesRange i slot then return .unknown
      holdingAfter p before slot
    else if i.shape.a ≠ some .dst ∨ i.a ≠ some slot then holdingAfter p before slot
    else match i.meaning with
      | some .mov => return .copyOf (before.length + 1) (← present i.cd)
      | some .gget => return .constant (← element p.complex (← present i.cd))
      | some .tgets =>
        let inner ← present i.b
        let table ← match p.debug.variableIn? (before.length + 1 : Nat) inner with
          | some v => pure (.text (← variableText v inner))
          | none => holdingAfter p before inner
        return .text (← fieldText table (← element p.complex (← present i.cd)))
      | some .uget => return .text (← upvalueText p (← present i.cd))
      | _ => return .unknown

/-- What a slot holds at an address, from the variables there and from the instructions
before it. -/
def holding (p : Prototype) (address : Nat) (slot : Int) : Except Fault Holding := do
  match p.debug.variableIn? address slot with
  | some v => return .text (← variableText v slot)
  | none => holdingAfter p ((p.instructions.take address).drop 1).reverse slot

def constantText : Complex Prototype → String
  | .text s => s
  | .number n => n.text
  | .pair re im => s!"({re.text}, {im.text})"
  | .table _ => "table"
  | .child _ => "function"

/-- The name of what a slot holds. Copies are followed; they lead to ever lower
addresses, so as much `fuel` as the address suffices. -/
def nameFrom (p : Prototype) : Nat → Nat → Int → Except Fault (Option Label)
  | 0, _, _ => .ok none
  | fuel + 1, address, slot => do
    match ← holding p address slot with
    | .unknown => return none
    | .text s | .constant (.text s) => return some (.text s)
    | .constant (.pair ..) => .error .illTyped
    | .constant c => return some (.constant (constantText c))
    | .copyOf address' slot' => nameFrom p fuel address' slot'

/-- A slot by the name of what it holds, or else by its number. -/
def slotLabel (p : Prototype) (address : Nat) (slot : Int) : Except Fault Label := do
  return (← nameFrom p (address + 1) address slot).getD (.text (slotText slot))

def slotNumber (slot : Int) : Label := .text (slotText slot)

def jumpLabel (address : Nat) (distance : Int) : Label :=
  .text (toString (jumpDestination address distance))

def operandLabel (p : Prototype) (address : Nat) (value : Int) :
    OperandKind → Except Fault Label
  | .dst | .base => .ok (slotNumber value)
  | .var => slotLabel p address value
  | .upvalue => return .text (← upvalueText p value)
  | .primitive =>
    if value = 0 then .ok (.text "nil")
    else if value = 2 then .ok (.text "true")
    else if value = 1 then .ok (.text "false")
    else .error (.broken "a primitive operand is nil, false or true")
  | .number => return .text (← element p.numbers value).text
  | .text => do
    match ← element p.complex value with
    | .text s => return .text ("\"" ++ s ++ "\"")
    | _ => .error .illTyped
  | .table => .ok (.text s!"table#k{value}")
  | .cdata => return .text (constantText (← element p.complex value))
  | .jump => .ok (jumpLabel address value)
  | .literal | .signedLiteral => .ok (.text (toString value))
  | .readBase => .ok (.text s!"r{value}")
  | .proto => .ok (.text " ")

end LuaLift.Listing
