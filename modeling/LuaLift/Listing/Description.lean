import LuaLift.Listing.Label

/-! # What an instruction does, in words

The description of an opcode has holes. Which of them can be filled, and with what,
depends on the operation that the instruction's number names. -/
namespace LuaLift.Listing
open Bytecode

abbrev Fillings := List (Hole × Label)

def describe (pieces : List Piece) (fillings : Fillings) : Except Fault String := do
  let parts ← pieces.mapM fun
    | .text s => pure s
    | .hole h => match fillings.lookup h with
      | some l => pure l.plain
      | none => .error .noEntry
  return String.join parts

def operandIf (p : Prototype) (address : Nat) (value : Option Int) (kind : Option OperandKind) :
    Except Fault Label :=
  match kind with
  | none => .ok .absent
  | some k => do operandLabel p address (← present value) k

def operandLabels (p : Prototype) (address : Nat) (i : Instruction) :
    Except Fault (Label × Label × Label) := do
  return (← operandIf p address i.a i.shape.a, ← operandIf p address i.b i.shape.b,
    ← operandIf p address i.cd i.shape.cd)

/-- `count` slots from `first` on, by the names of what they hold. -/
def slotLabels (p : Prototype) (address : Nat) (first count : Int) : Except Fault (List Label) :=
  (List.range count.toNat).mapM fun (k : Nat) => slotLabel p address (first + k)

/-- The slots from `first` to `last`, by the names of what they hold. The slots are counted up
to the one behind `last`, which a run that starts behind that never reaches. -/
def slotRange (p : Prototype) (address : Nat) (first last : Int) : Except Fault (List Label) :=
  if last + 1 < first then .error .tooDeep else slotLabels p address first (last + 1 - first)

/-- `count` slots from `first` on, by their numbers. -/
def slotNumbers (first count : Int) : List Label :=
  (List.range count.toNat).map fun (k : Nat) => slotNumber (first + k)

def joined (separator : String) (labels : List Label) : Except Fault Label := do
  return .text (separator.intercalate (← labels.mapM Label.asText))

/-- The destination of a result: `count` slots, or a number of them that is not known. -/
def resultsLabel (first count : Int) : Except Fault Label :=
  if 0 ≤ count then joined ", " (slotNumbers first count) else .ok (.text "MULTRES")

def callFillings (p : Prototype) (address : Nat) (i : Instruction) (hole : Hole)
    (open_ : Bool) : Except Fault Fillings := do
  let base ← present i.a
  let given ← present i.cd
  let count := if open_ then given else given - 1
  let results ← present i.b
  let arguments ← slotLabels p address (base + 1) count
  let callee ← slotLabel p address base
  return [(.a, callee), (.results, ← resultsLabel base (results - 1)),
    (hole, ← joined ", " arguments)]

def tailCallFillings (p : Prototype) (address : Nat) (i : Instruction) (hole : Hole) :
    Except Fault Fillings := do
  let base ← present i.a
  let given ← present i.cd
  let arguments ← slotLabels p address (base + 1) (given - 1)
  let callee ← slotLabel p address base
  return [(.a, callee), (hole, ← joined ", " arguments)]

def iteratorFillings (p : Prototype) (address : Nat) (i : Instruction) :
    Except Fault Fillings := do
  let base ← present i.a
  let less3 ← slotLabel p address (base - 3)
  let less2 ← slotLabel p address (base - 2)
  let less1 ← slotLabel p address (base - 1)
  let results ← present i.b
  return [(.a, slotNumber base), (.aPlus1, slotNumber (base + 1)),
    (.aPlus2, slotNumber (base + 2)), (.aLess3, less3), (.aLess2, less2), (.aLess1, less1),
    (.results, ← joined ", " (slotNumbers base (results - 1)))]

def powerOfTwo (e : Int) : Number :=
  if 0 ≤ e then .int (Int.pow 2 e.toNat) else .double ((1023 + e).toNat.toUInt64 <<< 52)

def newTableFillings (p : Prototype) (address : Nat) (i : Instruction) :
    Except Fault Fillings := do
  let a ← operandIf p address (some (← present i.a)) i.shape.a
  let size ← present i.cd
  return [(.a, a), (.arraySize, .text (toString (size % 2048))),
    (.hashSize, .text (powerOfTwo (Int.fdiv size 2048)).text)]

def forInitFillings (p : Prototype) (address : Nat) (i : Instruction) :
    Except Fault Fillings := do
  let base ← present i.a
  let index ← slotLabel p address (base + 3)
  return [(.a, slotNumber base), (.aPlus1, slotNumber (base + 1)),
    (.aPlus2, slotNumber (base + 2)), (.aPlus3, index),
    (.d, jumpLabel address (← present i.cd))]

def forLoopFillings (p : Prototype) (address : Nat) (i : Instruction) :
    Except Fault Fillings := do
  let base ← present i.a
  let limit ← slotLabel p address (base + 1)
  let step ← slotLabel p address (base + 2)
  let index ← slotLabel p address (base + 3)
  return [(.a, index), (.aPlus1, limit), (.aPlus2, step),
    (.d, jumpLabel address (← present i.cd))]

def iterLoopFillings (p : Prototype) (address : Nat) (i : Instruction) :
    Except Fault Fillings := do
  let base ← present i.a
  let control ← slotLabel p address (base - 1)
  let first ← slotLabel p address base
  return [(.aLess1, control), (.a, first), (.d, jumpLabel address (← present i.cd))]

def varargFillings (i : Instruction) : Except Fault Fillings := do
  let base ← present i.a
  let results ← present i.b
  if results < 2 then return [(.results, .text "MULTRES")]
  return [(.results, ← joined ", " (slotNumbers base (results - 1)))]

def plainFillings (p : Prototype) (address : Nat) (i : Instruction) : Except Fault Fillings := do
  let (a, b, cd) ← operandLabels p address i
  return [(.a, a), (.b, b), (.c, cd), (.d, cd)]

/-- A field that is named by a text constant, shown without its quotes. -/
def fieldFillings (p : Prototype) (address : Nat) (i : Instruction) : Except Fault Fillings := do
  let (a, b, cd) ← operandLabels p address i
  let s := (← cd.asText).toList
  return [(.a, a), (.b, b), (.c, .text (String.ofList (s.drop 1).dropLast))]

/-- What fills the holes of a description. Operations without a description of their
own and numbers without an operation are not listed. -/
def fillings (p : Prototype) (address : Nat) (i : Instruction) : Except Fault Fillings :=
  match i.meaning with
  | none => .error (if i.code < 255 then .illTyped else .outside)
  | some op => match op with
    | .istype | .isnum | .tgetr | .tsetr | .unknw => .error .illTyped
    | .cat => do
      let a ← operandIf p address (some (← present i.a)) i.shape.a
      let first ← present i.b
      let last ← present i.cd
      let parts ← slotRange p address first last
      return [(.a, a), (.joinedBToC, ← joined " .. " parts)]
    | .knil => do
      let first ← present i.a
      let last ← present i.cd
      let parts ← slotRange p address first last
      return [(.fromAToD, ← joined ", " parts)]
    | .tnew => newTableFillings p address i
    | .tgets | .tsets => fieldFillings p address i
    | .tsetm => do
      let base ← present i.a
      let table ← slotLabel p address (base - 1)
      let first ← present i.cd
      return [(.aLess1, table), (.a, .text (toString base)), (.dLow, .text (toString first))]
    | .callm => callFillings p address i .openArguments true
    | .call => callFillings p address i .arguments false
    | .callmt => tailCallFillings p address i .openTailArguments
    | .callt => tailCallFillings p address i .tailArguments
    | .iterc | .itern => iteratorFillings p address i
    | .varg => varargFillings i
    | .retm => do
      let base ← present i.a
      let count ← present i.cd
      return [(.openReturns, ← joined ", " (← slotLabels p address base (count - 1)))]
    | .ret => do
      let base ← present i.a
      let count ← present i.cd
      return [(.returns, ← joined ", " (← slotLabels p address base (count - 2)))]
    | .ret1 => do return [(.a, ← slotLabel p address (← present i.a))]
    | .fori | .jfori => forInitFillings p address i
    | .forl | .iforl | .jforl => forLoopFillings p address i
    | .iterl | .iiterl | .jiterl => iterLoopFillings p address i
    | _ => plainFillings p address i

def description (p : Prototype) (address : Nat) (i : Instruction) : Except Fault String := do
  describe i.shape.description (← fillings p address i)

end LuaLift.Listing
