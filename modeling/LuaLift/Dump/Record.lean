import LuaLift.Dump.Header
import LuaLift.Dump.Code
import LuaLift.Dump.Constants
import LuaLift.Dump.Debug

/-! # Function records

A record is its size and then that many bytes: flags, counts, instructions,
constants and debug information of one function. Its children stand before it. -/
namespace LuaLift.Dump
open Bytecode

/-- The flags in a byte; `none` if a bit has no meaning. -/
def decodeFlags (bits : Nat) : Option PrototypeFlags :=
  if bits / 32 != 0 then none
  else some {
    hasChildren := bits % 2 == 1
    isVariadic := bits / 2 % 2 == 1
    hasFFI := bits / 4 % 2 == 1
    hasJIT := bits / 8 % 2 == 0
    hasILoop := bits / 16 % 2 == 1 }

def readBody (numbering : Numbering) (stripped : Bool) (flags : PrototypeFlags) : Read Prototype := do
  let argumentCount ← Read.byte
  let framesize ← Read.byte
  let upvalueCount ← Read.byte
  let complexCount ← Read.uleb
  let numberCount ← Read.uleb
  let instructionCount ← Read.uleb
  let debugSize ← if stripped then pure 0 else Read.uleb
  let (firstLine, lineCount) ←
    if debugSize == 0 then pure (0, 0)
    else do
      let firstLine ← Read.uleb
      let lineCount ← Read.uleb
      pure (firstLine, lineCount)
  let instructions ← Read.times instructionCount (readInstruction numbering complexCount)
  let upvalues ← Read.times upvalueCount (Read.uint 2)
  let complex ← Read.times complexCount readComplex
  let numbers ← Read.times numberCount readNumber
  let debug ←
    if debugSize == 0 then pure {}
    else readDebug firstLine lineCount instructionCount upvalueCount
  return {
    flags, argumentCount, framesize, firstLine, lineCount
    instructions := Instruction.functionHeader flags.isVariadic framesize :: instructions
    upvalues, complex, numbers, debug }

/-- Reads a record; `none` if it is empty or refused. -/
def readRecord (numbering : Numbering) (stripped : Bool) : Read (Option Prototype) := do
  let size ← Read.uleb
  if size == 0 then return none
  unless ← Read.available size do
    Read.note "File truncated"
    return none
  let start := (← get).offset
  let bits ← Read.byte
  match decodeFlags bits with
  | none =>
    let digits := binaryText 8 (bits / 32 * 32)
    Read.note s!"Unknown prototype flags: {digits}"
    return none
  | some flags =>
    let p ← readBody numbering stripped flags
    let stop := (← get).offset
    if stop - start != size then throw (.misread start stop size)
    return some p

end LuaLift.Dump
