import LuaLift.Lift.Blocks
import LuaLift.Lift.Expression

/-! # Exits of blocks

The last one or two instructions of a block say where it leads. -/
namespace LuaLift.Lift
open Bytecode Tree Pass

/-- The blocks of a function by the address at which they start, newest first. -/
abbrev Starts := List (Int × NodeId)

/-- The block that starts at an address; one more exit leads to it. -/
def enterBlock (starts : Starts) (address : Int) : Edit NodeId := do
  match starts.find? (·.1 = address) with
  | some (_, i) =>
    modifyBlock i fun b => { b with entries := b.entries + 1 }
    return i
  | none => throw .noEntry

/-- An exit, and the number of instructions that belong to it. -/
abbrev Exit := NodeId × Int

def flowExit (starts : Starts) (address : Int) (i : Instruction) : Edit Exit := do
  let target ← enterBlock starts (address + 1)
  let exit ← add (.jump .flow target false)
  return (exit, if i.meaning = some .fori ∨ i.meaning = some .uclo then 1 else 0)

def jumpExit (starts : Starts) (address : Int) (i : Instruction) : Edit Exit := do
  let closes := i.meaning = some .uclo
  if closes then
    if (← operand i.cd) = 0 then return ← flowExit starts address i
  let target ← enterBlock starts (jumpDestination address (← operand i.cd))
  return (← add (.jump .jump target closes), 1)

/-- The exit of a test and the jump after it. The jump is taken when the condition
fails. -/
def testExit (p : Prototype) (starts : Starts) (address : Int) (test jump : Instruction) :
    Edit Exit := do
  let (condition, slot) ← match test.meaning with
    | some .istc | some .isfc => do
      let e ← unaryExpression (address - 1) test
      pure (e, some (← operand test.a))
    | some .ist | some .isf => do
      let e ← unaryExpression (address - 1) test
      pure (e, some (← operand test.cd))
    | _ => do pure (← comparison p (address - 1) test, none)
  let onFalse ← enterBlock starts (jumpDestination address (← operand jump.cd))
  let onTrue ← enterBlock starts (address + 1)
  return (← add (.test condition onTrue onFalse slot), 2)

def iteratorExit (starts : Starts) (address : Int) (call jump : Instruction) : Edit Exit := do
  require (call.meaning = some .iterc ∨ call.meaning = some .itern)
    "an iterator loop ends in a call of its iterator"
  let a ← operand call.a
  let controls ← addList .expressions (← slots (address - 1) (a - 3) (a - 1))
  let targets ← addList .targets (← slots (address - 2) a (a + (← operand call.b) - 2))
  let destination := jumpDestination address (← operand jump.cd)
  let wayOut ← enterBlock starts (address + 1)
  let body ← enterBlock starts destination
  return (← add (.iterate targets controls body wayOut), 2)

def countExit (starts : Starts) (address : Int) (i : Instruction) : Edit Exit := do
  let a ← operand i.a
  let index ← slot address (a + 3)
  let controls ← addList .expressions (← slots address a (a + 2))
  let body ← enterBlock starts (jumpDestination address (← operand i.cd))
  let wayOut ← enterBlock starts (address + 1)
  return (← add (.count index controls body wayOut), 1)

/-- The exit of a block whose last instruction, at `address`, is `last`; `before` is
the instruction before it in the block. -/
def exitOf (p : Prototype) (starts : Starts) (address : Int) (before : Option Instruction)
    (last : Instruction) : Edit Exit := do
  match last.meaning with
  | some .jmp | some .uclo | some .isnext =>
    match before with
    | some test =>
      if test.code ≤ Opcode.isf.number then
        require (last.meaning ≠ some .isnext) "a test is followed by a jump"
        testExit p starts address test last
      else jumpExit starts address last
    | none => jumpExit starts address last
  | some .iterl | some .iiterl | some .jiterl =>
    match before with
    | some call => iteratorExit starts address call last
    | none => throw (.broken "an iterator loop ends in two instructions")
  | some .forl | some .iforl | some .jforl => countExit starts address last
  | _ => flowExit starts address last

/-- The part of a list from one position up to another; negative positions count
from the end. -/
def slice {α : Type} (xs : List α) (start stop : Int) : List α :=
  let n : Int := xs.length
  let clamp := fun (k : Int) => (min (max (if k < 0 then k + n else k) 0) n).toNat
  (xs.take (clamp stop)).drop (clamp start)

/-- Sets the exit of a block, and gives the last address of its statements. -/
def setExit (p : Prototype) (starts : Starts) (i : NodeId) : Edit Int := do
  let b ← block i
  let window := slice p.instructions (max (b.last - 1) b.first) (b.last + 1)
  match window.reverse with
  | [] => throw .outside
  | last :: before =>
    let (exit, size) ← exitOf p starts b.last before.head? last
    modifyBlock i fun b => { b with exit := exit }
    setAddress exit (b.last - size + 1)
    return b.last - size

/-- Sets the exits of all blocks; the last block ends the function. Gives the last
address of the statements of each block. -/
def setExits (p : Prototype) (blocks : List NodeId) : Edit (List Int) := do
  let starts ← blocks.mapM fun i => do return ((← block i).first, i)
  match blocks.getLast? with
  | none => throw .outside
  | some final =>
    let stops ← blocks.dropLast.mapM (setExit p starts.reverse)
    let b ← block final
    let exit ← addAt b.last (.stop .absent)
    modifyBlock final fun b => { b with exit := exit }
    return stops ++ [b.last]

end LuaLift.Lift
