import LuaLift.Dump.Encode

/-! # Assembling a function

Instructions by their opcodes, and whole dumps of one function with text constants. -/
namespace LuaLift.Sample
open Bytecode Dump

def abc (op : Opcode) (a b c : Int) : Bytes := Encode.abc op.number a b c

def ad (op : Opcode) (a d : Int) : Bytes := Encode.ad op.number a d

def go (op : Opcode) (a distance : Int) : Bytes := Encode.jump op.number a distance

/-- The operand for a text among the constants of a function. -/
def textOperand (texts : List String) (s : String) : Int :=
  Encode.constantIndex texts.length (texts.idxOf s)

/-- A dump of one variadic function, stripped. -/
def script (framesize : Nat) (complex numbers instructions : List Bytes) : Bytes :=
  Encode.file none [Encode.record
    { flags := 2, argumentCount := 0, framesize, instructions, complex, numbers }]

/-- A dump of one variadic function with text constants, stripped. -/
def textScript (framesize : Nat) (texts : List String) (instructions : List Bytes) : Bytes :=
  script framesize (texts.map Encode.text) [] instructions

def sourceName : String := "@bench.lua"

/-- A dump of one variadic function with text constants and the names of its variables;
every instruction has a line of its own. -/
def namedScript (framesize : Nat) (texts : List String) (instructions : List Bytes)
    (locals : List (Encode.VariableTag × Nat × Nat)) : Bytes :=
  let lines := (List.range instructions.length).map (· + 1)
  Encode.file (some sourceName) [Encode.record
    { flags := 2, argumentCount := 0, framesize, instructions
      complex := texts.map Encode.text
      debug := some (Encode.debugSection lines [] locals) }]

end LuaLift.Sample
