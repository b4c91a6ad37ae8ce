import LuaLift.Lift.Operand

/-! # Basic blocks of a function

A block ends at a jump or where a jump leads to. -/
namespace LuaLift.Lift
open Bytecode Tree Pass

/-- Instructions that end a block and the one before their destination. -/
def isBranch : Opcode → Bool
  | .uclo | .isnext | .jmp | .fori | .jfori => true
  | _ => false

/-- Instructions that end a block only. -/
def isLoopEnd : Opcode → Bool
  | .forl | .iforl | .jforl | .iterl | .iiterl | .jiterl | .loop => true
  | _ => false

def insertAddress (a : Int) : List Int → List Int
  | [] => [a]
  | b :: bs => if a < b then a :: b :: bs else if a = b then b :: bs else b :: insertAddress a bs

/-- The addresses at which the instruction at `address` ends blocks. -/
def endsAt (address : Int) (i : Instruction) : Edit (List Int) := do
  match i.meaning with
  | none => return []
  | some o =>
    if isBranch o then
      let destination := jumpDestination address (← operand i.cd)
      if o = .uclo ∧ destination = address + 1 then return []
      else return [destination - 1, address]
    else if isLoopEnd o then return [address]
    else return []

/-- The last addresses of the blocks of a function, in order. A block that would
hold the function header only is left out. -/
def lastAddresses (code : List Instruction) : Edit (List Int) := do
  let ends ← (code.drop 1).zipIdx.mapM fun (i, k) => endsAt (k + 1) i
  let sorted := ends.flatten.foldl (fun acc a => insertAddress a acc) []
  match sorted ++ [(code.length : Int) - 1] with
  | 0 :: rest => return rest
  | all => return all

/-- First and last address of each block, given the last ones. -/
def ranges (previous : Int) : List Int → List (Int × Int)
  | [] => []
  | a :: rest => (previous + 1, a) :: ranges a rest

def addBlocks (code : List Instruction) : Edit (List NodeId) := do
  (ranges 0 (← lastAddresses code)).zipIdx.mapM fun ((first, last), k) =>
    add (.block { index := k, first, last })

end LuaLift.Lift
