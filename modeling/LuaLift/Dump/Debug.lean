import LuaLift.Dump.Source

/-! # Debug section of a function -/
namespace LuaLift.Dump
open Bytecode

/-- Names of the variables that the compiler makes for loops, by their tag. -/
def internalName? : Nat → Option String
  | 1 => some "<index>"
  | 2 => some "<limit>"
  | 3 => some "<step>"
  | 4 => some "<generator>"
  | 5 => some "<state>"
  | 6 => some "<control>"
  | _ => none

/-- Bytes of a line entry, by the number of lines of the function. -/
def lineWidth (lineCount : Nat) : Nat :=
  if lineCount ≥ 65536 then 4 else if lineCount ≥ 256 then 2 else 1

/-- Reads the lines of `n` instructions; address 0 has line 0. -/
def readLines (firstLine lineCount n : Nat) : Read (List Nat) := do
  let offsets ← Read.times n (Read.uint (lineWidth lineCount))
  return 0 :: offsets.map (firstLine + ·)

/-- Reads variable records up to the zero byte that ends them. Each record takes at
least one byte, so as much `fuel` as there are bytes suffices. -/
def readVariables : Nat → Nat → Read (List Variable)
  | 0, _ => throw .endOfByte
  | fuel + 1, lastStart => do
    let tag ← Read.byte
    if tag == 0 then return []
    let (name, kind) ← match internalName? tag with
      | some name => pure (name, VariableKind.internal)
      | none => do
        let name ← Read.asciiText (tag.toUInt8 :: (← Read.zeroTerminated))
        pure (name, VariableKind.visible)
    let start := lastStart + (← Read.uleb)
    let stop := start + (← Read.uleb)
    let others ← readVariables fuel start
    return ⟨name, kind, start, stop⟩ :: others

def readDebug (firstLine lineCount instructionCount upvalueCount : Nat) : Read DebugInfo := do
  let lines ← readLines firstLine lineCount instructionCount
  let upvalues ← Read.times upvalueCount do Read.asciiText (← Read.zeroTerminated)
  let locals ← readVariables ((← get).rest.length + 1) 0
  return { lines, upvalues, locals }

end LuaLift.Dump
