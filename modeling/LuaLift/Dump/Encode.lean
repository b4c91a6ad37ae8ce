import LuaLift.Dump.Header

/-! # Writing dumps

The encoders of the parts of a dump, each the counterpart of a reader. The parts are
byte strings, so that a record can also be put together from parts that no reader
accepts. -/
namespace LuaLift.Dump
open Bytecode

abbrev Bytes := List UInt8

namespace Encode

def uleb (n : Nat) : Bytes :=
  if n < 128 then [n.toUInt8] else (n % 128 + 128).toUInt8 :: uleb (n / 128)
termination_by n
decreasing_by omega

def taggedNumber (n : Nat) : Bytes := uleb (2 * n)

/-- The halves of a double: its low and its high 32 bits. -/
def halves (bits : UInt64) : Nat × Nat := (bits.toNat % 0x100000000, bits.toNat / 0x100000000)

/-- A double whose low half stands below a flag bit that is set. -/
def taggedDouble (bits : UInt64) : Bytes :=
  let (low, high) := halves bits
  uleb (2 * low + 1) ++ uleb high

def double (bits : UInt64) : Bytes :=
  let (low, high) := halves bits
  uleb low ++ uleb high

/-- A text, as a constant and as an item of a table: its tag tells its length. -/
def text (s : String) : Bytes :=
  let bytes := s.toUTF8.toList
  uleb (bytes.length + 5) ++ bytes

def twosComplement (v : Int) : Nat := (v % 0x100000000).toNat

/-- A numeric constant; of an integer the low 32 bits count. -/
def number : Number → Bytes
  | .int v => taggedNumber (twosComplement v)
  | .double bits => taggedDouble bits

def tableItem : TableItem → Bytes
  | .nil => [0]
  | .bool false => [1]
  | .bool true => [2]
  | .number (.int v) => 3 :: uleb (twosComplement v)
  | .number (.double bits) => 4 :: double bits
  | .text s => text s

def tableOf (array : List Bytes) (entries : List (Bytes × Bytes)) : Bytes :=
  1 :: (uleb array.length ++ uleb entries.length ++ array.flatten
    ++ entries.flatMap fun (key, value) => key ++ value)

def table (t : TableConstant) : Bytes :=
  tableOf (t.array.map tableItem)
    (t.entries.map fun (key, value) => (tableItem key, tableItem value))

/-- The place of a child function among the constants. -/
def child : Bytes := [0]

def wide (bits : UInt64) : Bytes := 2 :: double bits

def pair (re im : UInt64) : Bytes := 4 :: (double re ++ double im)

/-! ## Instructions -/

def lowByte (v : Int) : UInt8 := (v % 256).toNat.toUInt8

def short (v : Int) : Bytes := [lowByte v, lowByte (v / 256)]

/-- An instruction with the operands A, B and C. -/
def abc (op a b c : Int) : Bytes := [lowByte op, lowByte a, lowByte c, lowByte b]

/-- An instruction with the operands A and D. -/
def ad (op a d : Int) : Bytes := lowByte op :: lowByte a :: short d

def jump (op a distance : Int) : Bytes := ad op a (distance + 0x8000)

/-- The operand for constant `i` of `count` ones: they are counted from the last. -/
def constantIndex (count i : Int) : Int := count - 1 - i

/-! ## Records -/

structure Record where
  flags : Nat
  argumentCount : Nat
  framesize : Nat
  instructions : List Bytes
  upvalues : List Nat := []
  complex : List Bytes := []
  numbers : List Bytes := []
  /-- the debug section, `none` in a stripped dump -/
  debug : Option Bytes := none

/-- What a record says about its debug section: the size and, if there is any, the first
line and the number of lines, one for each instruction. -/
def Record.debugHead (r : Record) : Bytes :=
  match r.debug with
  | none => []
  | some [] => uleb 0
  | some section_ => uleb section_.length ++ uleb 1 ++ uleb r.instructions.length

def Record.body (r : Record) : Bytes :=
  [lowByte r.flags, lowByte r.argumentCount, lowByte r.framesize, lowByte r.upvalues.length]
    ++ uleb r.complex.length ++ uleb r.numbers.length ++ uleb r.instructions.length
    ++ r.debugHead ++ r.instructions.flatten ++ r.upvalues.flatMap (fun (n : Nat) => short n)
    ++ r.complex.flatten ++ r.numbers.flatten ++ r.debug.getD []

def record (r : Record) : Bytes :=
  let body := r.body
  uleb body.length ++ body

/-- What a variable is called in a debug section: a name, or the tag of a variable that
the compiler made. -/
inductive VariableTag where
  | name (s : String)
  | internal (tag : UInt8)
deriving DecidableEq, Repr

def VariableTag.bytes : VariableTag → Bytes
  | .name s => s.toUTF8.toList ++ [0]
  | .internal tag => [tag]

/-- A debug section of a function with few lines: the line of each instruction, the names
of the upvalues, and the variables, each with how far it starts behind the one before
and how long it lives. -/
def debugSection (lines : List Nat) (upvalues : List String)
    (locals : List (VariableTag × Nat × Nat)) : Bytes :=
  lines.map (fun (n : Nat) => lowByte n) ++ upvalues.flatMap (fun s => s.toUTF8.toList ++ [0])
    ++ locals.flatMap (fun (tag, start, length) => tag.bytes ++ uleb start ++ uleb length)
    ++ [0]

/-- A dump of records, which is stripped if it has no name. -/
def file (name : Option String) (records : List Bytes) : Bytes :=
  let head := match name with
    | none => [2]
    | some s =>
      let bytes := s.toUTF8.toList
      0 :: (uleb bytes.length ++ bytes)
  Header.magic ++ [2] ++ head ++ records.flatten ++ [0]

end Encode

end LuaLift.Dump
