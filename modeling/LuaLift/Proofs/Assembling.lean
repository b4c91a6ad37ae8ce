import Mathlib.Tactic.MkIffOfInductiveProp
import LuaLift.Dump.Encode
import LuaLift.Dump.Record

/-! # Assembling whole functions

`Encode.dump` writes a tree of functions as a stripped dump. Every function follows its
children, and of several children the one with the last constant comes first, so that the
children wait in the order of their constants when their parent is read. `InRange` says
which trees fit into the fields of a dump. -/
namespace LuaLift.Dump.Encode
open Bytecode

/-- The bits of an operand of a function with `count` complex constants. -/
def operandBits (count : Nat) (kind : OperandKind) (value : Int) : Int :=
  match kind with
  | .text | .table | .proto | .cdata => constantIndex count value
  | .jump => value + 0x8000
  | _ => value

/-- The bits of an operand that an opcode may lack. -/
def fieldBits (count : Nat) (kind : Option OperandKind) (value : Option Int) : Int :=
  match kind, value with
  | some k, some v => operandBits count k v
  | _, _ => 0

def instruction (count : Nat) (i : Instruction) : Bytes :=
  let a := fieldBits count i.shape.a i.a
  if i.shape.operandCount = 3 then
    abc i.code a (fieldBits count i.shape.b i.b) (fieldBits count i.shape.cd i.cd)
  else match i.shape.cd, i.cd with
    | some .jump, some distance => jump i.code a distance
    | kind, value => ad i.code a (fieldBits count kind value)

def flagByte (f : PrototypeFlags) : Nat :=
  f.hasChildren.toNat + 2 * f.isVariadic.toNat + 4 * f.hasFFI.toNat + 8 * (!f.hasJIT).toNat
    + 16 * f.hasILoop.toNat

/-- A complex constant. Integers do not occur among them. -/
def complex : Complex Prototype → Bytes
  | .text s => text s
  | .table t => table t
  | .number (.double bits) => wide bits
  | .pair (.double re) (.double im) => pair re im
  | .child _ => child
  | _ => []

/-- The record of a function; the function header is not written. -/
def recordOf (p : Prototype) : Record where
  flags := flagByte p.flags
  argumentCount := p.argumentCount
  framesize := p.framesize
  instructions := (p.instructions.drop 1).map (instruction p.complex.length)
  upvalues := p.upvalues
  complex := p.complex.map complex
  numbers := p.numbers.map number

mutual

/-- The records of a function and all below it. -/
def records : Prototype → List Bytes
  | ⟨flags, argumentCount, framesize, firstLine, lineCount, instructions, upvalues, cs, numbers,
      debug⟩ =>
    childRecords cs ++ [record (recordOf ⟨flags, argumentCount, framesize, firstLine, lineCount,
      instructions, upvalues, cs, numbers, debug⟩)]

/-- The records of the children among some constants, those of the last child first. -/
def childRecords : List (Complex Prototype) → List Bytes
  | [] => []
  | .child p :: cs => childRecords cs ++ records p
  | _ :: cs => childRecords cs

end

/-- A stripped dump of a tree of functions. -/
def dump (p : Prototype) : Bytes := file none (records p)

end LuaLift.Dump.Encode

namespace LuaLift.Proofs
open Bytecode Dump

/-! ## What fits into a dump -/

/-- An operand that is there exactly if its opcode has it, and fits into `width` bits. -/
def operandFits (count width : Nat) : Option OperandKind → Option Int → Bool
  | none, none => true
  | some k, some v =>
    0 ≤ Encode.operandBits count k v && Encode.operandBits count k v < Int.pow 2 width
  | _, _ => false

/-- A known instruction with operands that fit. -/
@[mk_iff]
structure InstructionFits (count : Nat) (i : Instruction) : Prop where
  known : i.op ≠ .unknw
  code : i.code = i.op.number
  a : operandFits count 8 i.shape.a i.a
  b : operandFits count 8 i.shape.b i.b
  cd : operandFits count (if i.shape.operandCount = 3 then 8 else 16) i.shape.cd i.cd

instance (count : Nat) (i : Instruction) : Decidable (InstructionFits count i) :=
  decidable_of_iff _ (instructionFits_iff count i).symm

def isDouble : Number → Bool
  | .double _ => true
  | .int _ => false

/-- A double, or an integer of 32 bits. -/
def numberFits : Number → Bool
  | .double _ => true
  | .int v => -0x80000000 ≤ v && v < 0x80000000

def itemFits : TableItem → Bool
  | .number n => numberFits n
  | _ => true

def tableFits (t : TableConstant) : Bool :=
  t.array.all itemFits && t.entries.all fun (key, value) => itemFits key && itemFits value

def complexFits : Complex Prototype → Bool
  | .table t => tableFits t
  | .number n => isDouble n
  | .pair re im => isDouble re && isDouble im
  | .text _ | .child _ => true

/-- The parts of a function fit into the fields of a record without debug section. -/
@[mk_iff]
structure FunctionFits (p : Prototype) : Prop where
  argumentCount : p.argumentCount < 256
  framesize : p.framesize < 256
  header : p.instructions.head? = some (.functionHeader p.flags.isVariadic p.framesize)
  instructions : ∀ i ∈ p.instructions.drop 1, InstructionFits p.complex.length i
  upvalueCount : p.upvalues.length < 256
  upvalues : ∀ n ∈ p.upvalues, n < 65536
  complex : ∀ c ∈ p.complex, complexFits c
  numbers : ∀ n ∈ p.numbers, numberFits n
  firstLine : p.firstLine = 0
  lineCount : p.lineCount = 0
  debug : p.debug = {}

instance (p : Prototype) : Decidable (FunctionFits p) := decidable_of_iff _ (functionFits_iff p).symm

/-- All functions of a tree fit. -/
inductive InRange : Prototype → Prop
  | tree {p : Prototype} : FunctionFits p → (∀ q, .child q ∈ p.complex → InRange q) → InRange p

end LuaLift.Proofs
