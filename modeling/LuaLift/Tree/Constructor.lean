import LuaLift.Tree.Equality
import LuaLift.Tree.Walk

/-! # Table constructors

A constructor has array items, with keys from 0 on, and records. A record with a
key that continues the array becomes an array item. -/
namespace LuaLift.Tree
open Pass
variable {σ : Type}

/-- The lists of array items and of records of a constructor. -/
def constructorParts (i : NodeId) : Pass σ (NodeId × NodeId) := do
  match ← node i with
  | .table array records => return (array, records)
  | _ => throw .noPart

/-- The array index that a key stands for, if it is an integer from 0 on. -/
def arrayIndex? (key : Node) : Pass σ (Option Nat) :=
  match key with
  | .constant .integer (.number (.int v)) => return if 0 ≤ v then some v.toNat else none
  | .constant .integer _ => throw .illTyped
  | _ => return none

/-- Puts a value at an index of the array items, if the index is at most one past the
end. An array that starts at 1 gets a nil at 0. -/
def insertArrayItem (array : NodeId) (index : Nat) (value : NodeId) : Pass σ Bool := do
  if index = 1 ∧ (← items array).isEmpty then
    appendItem array (← add (.arrayRecord (← add (.primitive .nil))))
  let xs ← items array
  if xs.length < index then return false
  let record ← add (.arrayRecord value)
  if xs.isEmpty ∨ index = xs.length then setItems array (xs ++ [record])
  else setItems array (xs.set index record)
  return true

/-- Adds a record, before a final call or vararg if there is one. -/
def insertRecord (records key value : NodeId) : Pass σ Unit := do
  let record ← add (.tableRecord key value)
  let xs ← items records
  let isOpen ← match xs.getLast? with
    | some last => do
      match ← node last with
      | .call .. | .vararg => pure true
      | _ => pure false
    | none => pure false
  if isOpen then setItems records (xs.dropLast ++ record :: xs.drop (xs.length - 1))
  else setItems records (xs ++ [record])

def insertEntry (constructor key value : NodeId) : Pass σ Unit := do
  let (array, records) ← constructorParts constructor
  let _ ← items array
  let xs ← items records
  match ← node key with
  | .multres =>
    let closed ← match xs.getLast? with
      | some last => do
        match ← node last with
        | .tableRecord .. => pure true
        | _ => pure false
      | none => pure true
    require closed "results of unknown number come last in a constructor"
    setItems records (xs ++ [value])
  | k =>
    match ← arrayIndex? k with
    | some index =>
      unless ← insertArrayItem array index value do insertRecord records key value
    | none => insertRecord records key value

/-- Looks for an element that is equal to `table`. -/
def mentionVisitor (table : NodeId) : Visitor Bool where
  admits _ := return !(← own)
  enter i := do
    match ← node i with
    | .element .. => if ← equal table i then setOwn true
    | _ => return ()

/-- Whether an expression has an element that is equal to `table`. -/
def mentions (expressions : List NodeId) (table : NodeId) : Pass σ Bool := do
  let ((), found) ← within false (walkList (mentionVisitor table) expressions)
  return found

end LuaLift.Tree
