import LuaLift.Sequence

/-! # Debug information

Line numbers, names of upvalues and the live ranges of local variables. The
variables of a function are numbered by the order of their records among those
that are live: slot `n` holds the `n`-th live variable. -/
namespace LuaLift.Bytecode

inductive VariableKind where
  | visible
  /-- made by the compiler for a loop -/
  | internal
deriving DecidableEq, Repr, Inhabited

/-- A local variable, live from address `start` up to but not including `stop`. -/
structure Variable where
  name : String
  kind : VariableKind
  start : Nat
  stop : Nat
deriving DecidableEq, Repr, Inhabited

structure DebugInfo where
  lines : List Nat := []
  upvalues : List String := []
  locals : List Variable := []
deriving DecidableEq, Repr, Inhabited

/-- The line of an address, 0 if it is not known. -/
def DebugInfo.line (d : DebugInfo) (address : Int) : Nat := (at? d.lines address).getD 0

def DebugInfo.upvalueName? (d : DebugInfo) (slot : Int) : Option String := at? d.upvalues slot

/-- The variable in a slot at an address, among records in the order of their start. -/
def variableAt (address : Int) : List Variable → Int → Option Variable
  | [], _ => none
  | v :: vs, slot =>
    if address < v.start then none
    else if v.stop ≤ address then variableAt address vs slot
    else if slot = 0 then some v
    else variableAt address vs (slot - 1)

def DebugInfo.variableIn? (d : DebugInfo) (address slot : Int) : Option Variable :=
  variableAt address d.locals slot

end LuaLift.Bytecode
