import Mathlib.Tactic.MkIffOfInductiveProp
import LuaLift.Lift.Blocks

/-! # Well-formed bytecode

What the code of a function looks like if a compiler has made it: operands are there and name
constants of the right kind, tests and iterators stand before their jumps, jumps stay in the
function and loops lead back behind the instruction that starts them. `WellFormed` collects the
conditions for a function, `Throughout` asks for them in all functions of a tree. -/
namespace LuaLift.Proofs
open Bytecode Lift

/-! ## Operands -/

/-- Whether a value is one that an operand of a kind can have. -/
def valueFits (p : Prototype) (v : Int) : OperandKind → Bool
  | .text => 0 ≤ v && match p.complex[v.toNat]? with
    | some (.text _) => true
    | _ => false
  | .table => 0 ≤ v && match p.complex[v.toNat]? with
    | some (.table _) => true
    | _ => false
  | .proto => 0 ≤ v && match p.complex[v.toNat]? with
    | some (.child _) => true
    | _ => false
  | .cdata => 0 ≤ v && match p.complex[v.toNat]? with
    | some (.number _) | some (.pair ..) => true
    | _ => false
  | .number => 0 ≤ v && v < p.numbers.length
  | .primitive => 0 ≤ v && v ≤ 2
  | .jump => true
  | .var | .dst | .base | .readBase | .upvalue | .literal | .signedLiteral => 0 ≤ v

/-- An operand is there exactly if its opcode has it, and has a value of its kind. -/
def operandLegible (p : Prototype) : Option OperandKind → Option Int → Bool
  | none, none => true
  | some kind, some v => valueFits p v kind
  | _, _ => false

/-- An instruction in the current numbering whose operands can be read. -/
@[mk_iff]
structure Legible (p : Prototype) (i : Instruction) : Prop where
  code : i.code = i.op.number
  a : operandLegible p i.shape.a i.a
  b : operandLegible p i.shape.b i.b
  cd : operandLegible p i.shape.cd i.cd

instance (p : Prototype) (i : Instruction) : Decidable (Legible p i) :=
  decidable_of_iff _ (legible_iff p i).symm

/-! ## Addresses -/

/-- Comparisons and tests, which are followed by a jump. -/
def isTest (o : Opcode) : Bool := o.number ≤ Opcode.isf.number

def isIterator : Opcode → Bool
  | .iterc | .itern => true
  | _ => false

def isIteratorEnd : Opcode → Bool
  | .iterl | .iiterl | .jiterl => true
  | _ => false

def isCountStart : Opcode → Bool
  | .fori | .jfori => true
  | _ => false

def isCountEnd : Opcode → Bool
  | .forl | .iforl | .jforl => true
  | _ => false

/-- Jumps that can lead to an iterator. -/
def isLeap : Opcode → Bool
  | .jmp | .isnext => true
  | _ => false

/-- Returns and tail calls. -/
def isReturn : Opcode → Bool
  | .retm | .ret | .ret0 | .ret1 | .callmt | .callt => true
  | _ => false

/-- The operation at an address. The function header, at address 0, is none. -/
def opAt (code : List Instruction) (a : Int) : Option Opcode :=
  if 1 ≤ a then code[a.toNat]?.bind Instruction.meaning else none

/-- Where the jump at an address leads. -/
def destinationAt (code : List Instruction) (a : Int) : Option Int :=
  code[a.toNat]?.bind fun i => i.cd.map (jumpDestination a)

/-- A condition on all operations with their addresses. -/
def EachOp (code : List Instruction) (P : Int → Opcode → Prop) : Prop :=
  ∀ k < code.length, ∀ o ∈ opAt code k, P k o

instance (code : List Instruction) (P : Int → Opcode → Prop) [∀ a o, Decidable (P a o)] :
    Decidable (EachOp code P) :=
  inferInstanceAs (Decidable (∀ k < code.length, ∀ o ∈ opAt code k, P k o))

/-- Some branch leads to an address. -/
def Targeted (code : List Instruction) (a : Int) : Prop :=
  ∃ k < code.length, (opAt code k).any isBranch = true ∧ destinationAt code k = some a

instance (code : List Instruction) (a : Int) : Decidable (Targeted code a) :=
  inferInstanceAs (Decidable (∃ k < code.length, _))

/-- The jump at an address leads behind an operation of some kind. -/
def LeadsBehind (code : List Instruction) (kind : Opcode → Bool) (a : Int) : Prop :=
  ∃ k < code.length, (opAt code k).any kind = true ∧ destinationAt code a = some ((k : Int) + 1)

instance (code : List Instruction) (kind : Opcode → Bool) (a : Int) :
    Decidable (LeadsBehind code kind a) :=
  inferInstanceAs (Decidable (∃ k < code.length, _))

/-- The code ends in a return, branches stay in the function, and a test stands before a jump
that no branch leads to. -/
@[mk_iff]
structure Jumping (code : List Instruction) : Prop where
  final : (opAt code ((code.length : Int) - 1)).any isReturn = true
  inside : EachOp code fun a o => isBranch o = true →
    (destinationAt code a).any (fun d : Int => 1 ≤ d && d < (code.length : Int)) = true
  test : EachOp code fun a o => isTest o = true →
    opAt code (a + 1) = some .jmp ∧ ¬ Targeted code (a + 1)

instance (code : List Instruction) : Decidable (Jumping code) :=
  decidable_of_iff _ (jumping_iff code).symm

/-- Iterators stand before the end of their loop, and loops lead back behind their start. -/
@[mk_iff]
structure Branching (code : List Instruction) : Prop extends Jumping code where
  iterator : EachOp code fun a o => isIterator o = true →
    (opAt code (a + 1)).any isIteratorEnd = true ∧ ¬ Targeted code (a + 1)
  iteratorEnd : EachOp code fun a o => isIteratorEnd o = true → LeadsBehind code isLeap a
  countEnd : EachOp code fun a o => isCountEnd o = true → LeadsBehind code isCountStart a

instance (code : List Instruction) : Decidable (Branching code) :=
  decidable_of_iff _ (branching_iff code).symm

/-- The end of an iterator loop stands right behind a call of the iterator. -/
def IteratorsCalled (code : List Instruction) : Prop :=
  EachOp code fun a o => isIteratorEnd o = true → (opAt code (a - 1)).any isIterator = true

instance (code : List Instruction) : Decidable (IteratorsCalled code) :=
  inferInstanceAs (Decidable (EachOp ..))

/-! ## Functions -/

/-- Opcodes that a compiler writes; the others are made while a program runs. -/
def isCompiled : Opcode → Bool
  | .istype | .isnum | .jfori | .iforl | .jforl | .iiterl | .jiterl | .iloop | .jloop
  | .funcf | .ifuncf | .jfuncf | .funcv | .ifuncv | .jfuncv | .funcc | .funccw | .unknw => false
  | _ => true

/-- The slots that an instruction uses beside those of its operands are there. -/
def slotsFit (i : Instruction) : Bool :=
  match i.op, i.a, i.cd with
  | .knil, some a, some d => a ≤ d
  | .tsetm, some a, _ => 1 ≤ a
  | .iterc, some a, _ | .itern, some a, _ => 3 ≤ a
  | _, _, _ => true

/-- A leap at `e`, with no test before it, leads to `a`, and the jump behind `a` leads back behind
the leap. -/
def EnteredFrom (code : List Instruction) (a e : Int) : Prop :=
  (opAt code e).any isLeap = true ∧ (opAt code (e - 1)).any isTest = false ∧
    destinationAt code e = some a ∧ destinationAt code (a + 1) = some (e + 1)

instance (code : List Instruction) (a e : Int) : Decidable (EnteredFrom code a e) :=
  inferInstanceAs (Decidable (_ ∧ _ ∧ _ ∧ _))

/-- A numeric loop starts at `e` and ends at `a`: each leads behind the other. -/
def CountsFrom (code : List Instruction) (a e : Int) : Prop :=
  opAt code e = some .fori ∧ destinationAt code e = some (a + 1) ∧
    destinationAt code a = some (e + 1)

instance (code : List Instruction) (a e : Int) : Decidable (CountsFrom code a e) :=
  inferInstanceAs (Decidable (_ ∧ _ ∧ _))

/-- The code of a function as a compiler writes it, instruction by instruction. -/
@[mk_iff]
structure Regular (p : Prototype) : Prop extends Jumping p.instructions where
  legible : ∀ i ∈ p.instructions.drop 1, Legible p i
  slots : ∀ i ∈ p.instructions.drop 1, slotsFit i = true
  compiled : EachOp p.instructions fun _ o => isCompiled o = true
  iterator : EachOp p.instructions fun a o => isIterator o = true →
    opAt p.instructions (a + 1) = some .iterl ∧ ¬ Targeted p.instructions (a + 1) ∧
      ∃ k < p.instructions.length, EnteredFrom p.instructions a k
  count : EachOp p.instructions fun a o => o = .forl →
    ∃ k < p.instructions.length, CountsFrom p.instructions a k

instance (p : Prototype) : Decidable (Regular p) := decidable_of_iff _ (regular_iff p).symm

/-- Regular code whose loops end behind their start, each iterator loop with the call of its
iterator. -/
@[mk_iff]
structure WellFormed (p : Prototype) : Prop extends Regular p where
  back : EachOp p.instructions fun a o => o = .forl ∨ o = .iterl →
    (destinationAt p.instructions a).any (fun d : Int => d ≤ a) = true
  called : EachOp p.instructions fun a o => o = .iterl →
    (opAt p.instructions (a - 1)).any isIterator = true

instance (p : Prototype) : Decidable (WellFormed p) := decidable_of_iff _ (wellFormed_iff p).symm

/-- A condition on a function and all functions below it. -/
inductive Throughout (P : Prototype → Prop) : Prototype → Prop
  | tree {p : Prototype} : P p → (∀ q, .child q ∈ p.complex → Throughout P q) → Throughout P p

variable {code : List Instruction} {P : Int → Opcode → Prop} {a : Int} {o : Opcode} {i : Instruction}

theorem exists_of_opAt (h : opAt code a = some o) :
    1 ≤ a ∧ a < code.length ∧ ∃ i, code[a.toNat]? = some i ∧ i.meaning = some o := by
  unfold opAt at h
  split at h
  · rename_i ha
    obtain ⟨i, hi, ho⟩ := Option.bind_eq_some_iff.mp h
    have hlt := (List.getElem?_eq_some_iff.mp hi).1
    exact ⟨ha, by omega, i, hi, ho⟩
  · cases h

theorem opAt_of (ha : 1 ≤ a) (hi : code[a.toNat]? = some i) :
    opAt code a = i.meaning := by
  rw [opAt, if_pos ha, hi]
  rfl

theorem destinationAt_of (hi : code[a.toNat]? = some i) :
    destinationAt code a = i.cd.map (jumpDestination a) := by
  rw [destinationAt, hi]
  rfl

theorem EachOp.at (h : EachOp code P) (ho : opAt code a = some o) : P a o := by
  obtain ⟨h1, h2, -⟩ := exists_of_opAt ho
  have := h a.toNat (by omega) o
  rw [Int.toNat_of_nonneg (by omega)] at this
  exact this ho

theorem targeted_of (ho : opAt code a = some o) (hb : isBranch o = true) {d : Int}
    (hd : destinationAt code a = some d) : Targeted code d := by
  obtain ⟨h1, h2, -⟩ := exists_of_opAt ho
  refine ⟨a.toNat, by omega, ?_⟩
  rw [Int.toNat_of_nonneg (by omega)]
  exact ⟨by rw [ho]; exact hb, hd⟩

theorem Jumping.destination (h : Jumping code) (ho : opAt code a = some o)
    (hb : isBranch o = true) : ∃ d, destinationAt code a = some d ∧ 1 ≤ d ∧ d < code.length := by
  have hi := h.inside.at ho hb
  obtain ⟨d, hd, hr⟩ := (Option.any_eq_true ..).mp hi
  exact ⟨d, hd, by simpa using hr⟩

theorem LeadsBehind.destination {kind : Opcode → Bool} (h : LeadsBehind code kind a) :
    ∃ e o, opAt code e = some o ∧ kind o = true ∧ destinationAt code a = some (e + 1) := by
  obtain ⟨k, -, ho, hd⟩ := h
  obtain ⟨o, ho, hk⟩ := (Option.any_eq_true ..).mp ho
  exact ⟨k, o, ho, hk, hd⟩

theorem Legible.meaning {p : Prototype} (h : Legible p i) :
    i.meaning = some i.op := by
  rw [Instruction.meaning, h.code, Opcode.ofNumber?_number]

/-! ## Functions by their instructions -/

/-- An instruction with the operands A, B and C. -/
def withABC (op : Opcode) (a b c : Int) : Instruction := ⟨op, op.number, some a, some b, some c⟩

/-- An instruction with the operands A and D. -/
def withAD (op : Opcode) (a d : Int) : Instruction := ⟨op, op.number, some a, none, some d⟩

/-- A function without constants and arguments that has some instructions. -/
def ofCode (code : List Instruction) : Prototype :=
  { flags := {}, argumentCount := 0, framesize := 8, firstLine := 0, lineCount := 0
    instructions := .functionHeader false 8 :: code
    upvalues := [], complex := [], numbers := [], debug := {} }

theorem throughout_ofCode {P : Prototype → Prop} (h : P (ofCode code)) :
    Throughout P (ofCode code) :=
  .tree h fun _ hq => by cases hq

end LuaLift.Proofs
