import LuaLift.Dump.Header
import LuaLift.Listing.Description
import LuaLift.Text.Indented

/-! # The listing of a dump

The header, and for each function its table constants and its instructions, one a line
with its address, its line, its operands and what it does. A function that is made by an
instruction is listed below that instruction. -/
namespace LuaLift.Listing
open Bytecode Dump Text

def padLeft (width : Nat) (s : String) : String :=
  String.ofList (List.replicate (width - s.length) ' ') ++ s

def padRight (width : Nat) (s : String) : String :=
  s ++ String.ofList (List.replicate (width - s.length) ' ')

def operandText (o : Option Int) : String := (o.map toString).getD ""

def instructionLine (address line : Nat) (name : String) (a b c : Option Int)
    (description : String) : String :=
  "\t".intercalate [padLeft 3 (toString address), "[" ++ padLeft 3 (toString line) ++ "]",
    padRight 5 name, padLeft 3 (operandText a), operandText b, operandText c,
    "; " ++ description]

/-- Where the functions of a dump come from. -/
def sourceOf (h : Header) : String := if h.flags.stripped then "N/A" else h.name

def headerText (h : Header) : String :=
  "\n".intercalate ["", ";", s!"; Disassemble of {h.origin}", ";",
    s!"; Source file: {sourceOf h}", ";", "; Flags:",
    ";\tStripped: " ++ (if h.flags.stripped then "Yes" else "No"),
    ";\tEndianness: " ++ (if h.flags.bigEndian then "Big" else "Little"),
    ";\tFFI: " ++ (if h.flags.ffi then "Present" else "Not present"), ";", "", ""]

/-- What a function is: its lines and the numbers of its arguments, upvalues and slots. -/
def functionText (source : String) (p : Prototype) : String :=
  let more := if p.flags.isVariadic then "+" else ""
  s!"{source}:{p.firstLine}-{p.firstLine + p.lineCount}: {p.argumentCount}{more} args," ++
    s!" {p.upvalues.length} upvalues, {p.framesize} slots"

def itemText : TableItem → String
  | .nil => "nil"
  | .bool true => "true"
  | .bool false => "false"
  | .number n => n.text
  | .text s => s

/-- A table constant. Item 0 of the array is left out if it is nil. -/
def writeTable (index : Nat) (t : TableConstant) : Lines Unit := do
  Lines.openBlock (some (.ok s!"ktable#{index} = ["))
  t.array.zipIdx.forM fun (item, i) => do
    if i != 0 || item != .nil then Lines.writeLine (.ok s!"#{i}: {itemText item},")
  t.entries.forM fun (key, value) =>
    Lines.writeLine (.ok s!"[{itemText key}] = {itemText value},")
  Lines.closeBlock (some (.ok "]"))
  Lines.writeLine (.ok "")
  Lines.writeLine (.ok "")

def writeTables (p : Prototype) : Lines Unit :=
  p.complex.zipIdx.forM fun (c, i) => do
    if let .table t := c then writeTable i t

def childOf (p : Prototype) (i : Instruction) : Except Fault Prototype := do
  match ← element p.complex (← present i.cd) with
  | .child q => return q
  | _ => .error .noPart

def writeInstruction (p : Prototype) (address : Nat) (i : Instruction) : Lines Unit := do
  let words ← Lines.obtain (description p address i)
  Lines.writeMultiline (.ok (instructionLine address (p.debug.line address) i.shape.name
    i.a i.b i.cd words))

/-- Constants and instructions of a function. Children are nested less deep than
`depth`. -/
def writeBody (source : String) : Nat → Prototype → Lines Unit
  | 0, _ => return ()
  | depth + 1, p => do
    Lines.writeLine (.ok ";;;; constant tables ;;;;")
    writeTables p
    Lines.writeLine (.ok ";;;; instructions ;;;;")
    p.instructions.zipIdx.forM fun (i, address) => do
      if address = 0 then return ()
      if i.meaning = some .fnew then
        let child ← Lines.obtain (childOf p i)
        let a ← Lines.obtain (present i.a)
        Lines.openBlock (some (.ok (instructionLine address (p.debug.line address) "FNEW"
          (some a) none i.cd (functionText source child))))
        Lines.writeLine (.ok "")
        writeBody source depth child
        Lines.closeBlock none
      else writeInstruction p address i

def write (h : Header) (p : Prototype) : Lines Unit := do
  let source := sourceOf h
  Lines.writeMultiline (.ok (headerText h))
  Lines.openBlock (some (.ok ("main " ++ functionText source p)))
  writeBody source p.height p
  Lines.closeBlock (some (.ok ""))

/-- The text of the listing, and why it ends early if it does. -/
def text (h : Header) (p : Prototype) : String × Option Fault :=
  match (write h p).run {} with
  | .ok _ w => (w.text, none)
  | .error e w => (w.text, some e)

end LuaLift.Listing
