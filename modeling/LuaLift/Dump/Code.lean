import LuaLift.Dump.Source

/-! # Instruction words

An instruction is a word of 32 bits: the opcode in the lowest byte, operand A in
the next, then C and B in a byte each, or D in the upper half. -/
namespace LuaLift.Dump
open Bytecode

/-- The value of an operand, from its bits. Constants other than numbers are
counted from the end of the list of `complexCount` complex constants. -/
def operandValue (complexCount : Nat) (kind : OperandKind) (bits : Nat) : Int :=
  match kind with
  | .text | .table | .proto | .cdata => (complexCount : Int) - bits - 1
  | .jump => (bits : Int) - 0x8000
  | _ => bits

def decodeWord (numbering : Numbering) (complexCount word : Nat) : Instruction :=
  let code := word % 256
  let op := (numbering.decode code).getD .unknw
  let shape := op.shape
  let value := operandValue complexCount
  let high := if shape.operandCount == 3 then word / 0x10000 % 256 else word / 0x10000 % 65536
  { op, code
    a := shape.a.map (value · (word / 0x100 % 256))
    b := shape.b.map (value · (word / 0x1000000 % 256))
    cd := shape.cd.map (value · high) }

def hexText (width n : Nat) : String :=
  let ds := Nat.toDigits 16 n
  String.ofList (List.replicate (width - ds.length) '0' ++ ds)

def readInstruction (numbering : Numbering) (complexCount : Nat) : Read Instruction := do
  let word ← Read.uint 4
  let code := word % 256
  if (numbering.decode code).isNone then
    let digits := hexText 8 code
    Read.note s!"Warning: unknown opcode {digits}"
  return decodeWord numbering complexCount word

end LuaLift.Dump
