import LuaLift.Bytecode.Numbering

/-! # Instructions -/
namespace LuaLift.Bytecode

/-- An instruction. The opcode gives the operands and the description; what the
instruction does is decided by its number, `meaning`. The two differ when a dump
does not use the current numbering. -/
structure Instruction where
  op : Opcode
  /-- the number as it was read -/
  code : Nat
  a : Option Int
  b : Option Int
  cd : Option Int
deriving DecidableEq, Repr, Inhabited

def Instruction.meaning (i : Instruction) : Option Opcode := Opcode.ofNumber? i.code

def Instruction.shape (i : Instruction) : Shape := i.op.shape

/-- The function header that stands in front of the instructions of a function. -/
def Instruction.functionHeader (variadic : Bool) (framesize : Nat) : Instruction :=
  let op := if variadic then Opcode.funcv else .funcf
  ⟨op, op.number, some framesize, none, none⟩

def jumpDestination (address cd : Int) : Int := address + cd + 1

def jumpDistance (address destination : Int) : Int := destination - address - 1

theorem jumpDestination_jumpDistance (address destination : Int) :
    jumpDestination address (jumpDistance address destination) = destination := by
  simp only [jumpDestination, jumpDistance]; omega

end LuaLift.Bytecode
