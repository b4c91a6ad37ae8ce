import LuaLift.Number
import LuaLift.Bytecode.Instruction
import LuaLift.Bytecode.DebugInfo

/-! # Function prototypes -/
namespace LuaLift.Bytecode

structure PrototypeFlags where
  hasFFI : Bool := false
  hasILoop : Bool := false
  hasJIT : Bool := true
  hasChildren : Bool := false
  isVariadic : Bool := false
deriving DecidableEq, Repr, Inhabited

inductive TableItem where
  | nil
  | bool (b : Bool)
  | number (n : Number)
  | text (s : String)
deriving DecidableEq, Repr, Inhabited

/-- A table constant; its entries keep their order. -/
structure TableConstant where
  array : List TableItem := []
  entries : List (TableItem × TableItem) := []
deriving DecidableEq, Repr, Inhabited

/-- A complex constant. Child functions are of type `P`. -/
inductive Complex (P : Type) where
  | text (s : String)
  | table (t : TableConstant)
  | number (n : Number)
  | pair (re im : Number)
  | child (p : P)
deriving Repr, Inhabited

structure Prototype where
  flags : PrototypeFlags
  argumentCount : Nat
  framesize : Nat
  firstLine : Nat
  lineCount : Nat
  /-- the instructions, the function header first -/
  instructions : List Instruction
  upvalues : List Nat
  complex : List (Complex Prototype)
  numbers : List Number
  debug : DebugInfo
deriving Repr, Inhabited

mutual

/-- How deep the children of a function are nested, the function itself included. -/
def Prototype.height : Prototype → Nat
  | ⟨_, _, _, _, _, _, _, complex, _, _⟩ => Prototype.heights complex + 1

def Prototype.heights : List (Complex Prototype) → Nat
  | [] => 0
  | .child p :: rest => max p.height (Prototype.heights rest)
  | _ :: rest => Prototype.heights rest

end

end LuaLift.Bytecode
