/-! # What can go wrong

Every step of the library is a total function; a step that cannot go on ends in
a `Fault` that names the cause. `Fault.message` has the wording of those causes
that are shown to the user. -/
namespace LuaLift

/-- Causes of failure, shared by all steps. -/
inductive Fault where
  /-- a rule that the step relies on does not hold -/
  | broken (rule : String)
  /-- a position lies outside its list -/
  | outside
  /-- a name or a key has no entry -/
  | noEntry
  /-- a value does not have the part that is asked of it -/
  | noPart
  /-- an operation is applied to a value of another type -/
  | illTyped
  /-- a value of the right type that the operation cannot use -/
  | unusable
  /-- a variable is read before anything was stored in it -/
  | unset
  /-- the control flow has a jump that no loop or branch explains -/
  | needsGoto
  /-- a jump leaves a loop for a place that is not the end of that loop -/
  | strayExit
  /-- bytes that are not text of the expected encoding -/
  | badText
  /-- a number with more bits than its field -/
  | tooWide
  /-- the input ends before `wanted` more bytes -/
  | endOfInput (wanted : Nat)
  /-- the input ends where one more byte is needed -/
  | endOfByte
  /-- a record whose parts end at another place than its size says -/
  | misread (start stop size : Nat)
  /-- steps without end: nesting that exceeds the number of nodes, so the structure is
  cyclic, or a count that never reaches its bound -/
  | tooDeep
  | noFile
  | noNumbering
deriving DecidableEq, Repr, Inhabited

/-- The wording of a fault, for the faults that have one. -/
def Fault.message : Fault → Option String
  | .needsGoto | .strayExit => some "GOTO statements are not supported"
  | .endOfInput n => some s!"Unexpected EOF while trying to read {n} bytes"
  | .endOfByte => some "Unexpected EOF while trying to read 1 byte"
  | .misread start stop size =>
    some s!"Incorrectly read: from {start} to {stop} ({stop - start}) instead of {size}"
  | _ => none

end LuaLift
