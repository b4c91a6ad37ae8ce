import LuaLift.Dump.Source

/-! # Constants of a function -/
namespace LuaLift.Dump
open Bytecode

/-- The double whose bits are `low` and, above 32 bits, `high`. -/
def doubleOfHalves (low high : Nat) : Except Fault Number :=
  let bits := (high * 0x100000000) ||| low
  if bits < 0x10000000000000000 then .ok (.double bits.toUInt64) else .error .tooWide

/-- Reads a number as 32 bits in two's complement; further bits are kept. -/
def signed (n : Nat) : Int :=
  if n / 0x80000000 % 2 == 1 then (n : Int) - 0x100000000 else n

def readDouble : Read Number := do
  let low ← Read.uleb
  let high ← Read.uleb
  match doubleOfHalves low high with
  | .ok n => return n
  | .error e => throw e

def readTableItem : Read TableItem := do
  match ← Read.uleb with
  | 0 => return .nil
  | 1 => return .bool false
  | 2 => return .bool true
  | 3 => return .number (.int (signed (← Read.uleb)))
  | 4 => return .number (← readDouble)
  | n + 5 => return .text (← Read.text n)

def readTable : Read TableConstant := do
  let arraySize ← Read.uleb
  let entryCount ← Read.uleb
  let array ← Read.times arraySize readTableItem
  let entries ← Read.times entryCount do
    let key ← readTableItem
    let value ← readTableItem
    return (key, value)
  return { array, entries }

def takePending : Read Prototype := do
  match (← get).pending with
  | [] => throw .outside
  | p :: ps =>
    modify fun s => { s with pending := ps }
    return p

def readComplex : Read (Complex Prototype) := do
  match ← Read.uleb with
  | 0 => return .child (← takePending)
  | 1 => return .table (← readTable)
  | 4 =>
    let re ← readDouble
    let im ← readDouble
    return .pair re im
  | 2 | 3 => return .number (← readDouble)
  | n + 5 => return .text (← Read.text n)

def readNumber : Read Number := do
  let (isDouble, low) ← Read.ulebWithBit
  if isDouble == 1 then
    let high ← Read.uleb
    match doubleOfHalves low high with
    | .ok n => return n
    | .error e => throw e
  else return .int (signed low)

end LuaLift.Dump
