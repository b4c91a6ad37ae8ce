import LuaLift.Bytecode.Opcode

/-! # Opcode numberings

Releases of the virtual machine number the opcodes differently: the earlier
numbering lacks four of them, so all that follow have smaller numbers. -/
namespace LuaLift.Bytecode

inductive Numbering where
  /-- release 2.0 -/
  | earlier
  /-- release 2.1 -/
  | current
deriving DecidableEq, Repr, Inhabited

def Numbering.version : Numbering → String
  | .earlier => "2.0"
  | .current => "2.1"

def Numbering.ofVersion? (s : String) : Option Numbering :=
  [Numbering.earlier, .current].find? (·.version == s)

def Numbering.has : Numbering → Opcode → Bool
  | _, .unknw => false
  | .current, _ => true
  | .earlier, o => !([.istype, .isnum, .tgetr, .tsetr] : List Opcode).contains o

/-- The opcodes of a numbering, in the order of their numbers. -/
def Numbering.table (n : Numbering) : List Opcode := Opcode.all.filter n.has

def Numbering.decode (n : Numbering) (code : Nat) : Option Opcode := n.table[code]?

end LuaLift.Bytecode
