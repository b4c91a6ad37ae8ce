import LuaLift.Dump.Header
import LuaLift.Text.Outline

/-! # Outlines of headers and functions

Every part of a header or a function with its name, in alphabetical order. -/
namespace LuaLift.Dump
open Bytecode
open Text (Outline)

def nat (n : Nat) : Outline := .leaf (toString n)

def flag (b : Bool) : Outline := .leaf (if b then "True" else "False")

def nothing : Outline := .titled "NoneType" []

def operation : Outline := .titled "method" []

/-- Two values together; only what they offer is shown. -/
def pairOutline : Outline :=
  let builtIn : Outline := .titled "builtin_function_or_method" []
  .titled "tuple" [("count", builtIn), ("index", builtIn)]

/-- A flag of the header by the value of its bit. -/
def bit (value : Nat) (b : Bool) : Outline := nat (if b then value else 0)

def Header.outline (h : Header) : Outline :=
  .titled "Header" [
    ("flags", .titled "Flags" [("has_ffi", bit 4 h.flags.ffi),
      ("is_big_endian", bit 1 h.flags.bigEndian), ("is_stripped", bit 2 h.flags.stripped)]),
    ("name", .leaf h.name), ("origin", .leaf h.origin), ("version", nat h.version)]

def kindOutline (k : Option OperandKind) : Outline :=
  match k with
  | some k => nat k.ctorIdx
  | none => nothing

def operandEntry (name : String) (o : Option Int) : List (String × Outline) :=
  match o with
  | some v => [(name, .leaf (toString v))]
  | none => []

def instructionOutline (i : Instruction) : Outline :=
  let s := i.shape
  .titled "_Instruction" (
    operandEntry "A" i.a ++ [("A_type", kindOutline s.a)] ++
    operandEntry "B" i.b ++ [("B_type", kindOutline s.b)] ++
    operandEntry "CD" i.cd ++ [("CD_type", kindOutline s.cd),
      ("args_count", nat s.operandCount), ("description", .leaf (Piece.template s.description)),
      ("name", .leaf s.name), ("opcode", nat i.code)])

def variableOutline (v : Variable) : Outline :=
  .titled "VariableInfo" [("T_INTERNAL", nat 1), ("T_VISIBILE", nat 0), ("end_addr", nat v.stop),
    ("name", .leaf v.name), ("start_addr", nat v.start), ("type", nat v.kind.ctorIdx)]

def debugOutline (d : DebugInfo) : Outline :=
  .titled "DebugInformation" [
    ("addr_to_line_map", .list (d.lines.map nat)), ("lookup_line_number", operation),
    ("lookup_local_name", operation), ("lookup_upvalue_name", operation),
    ("upvalue_variable_names", .list (d.upvalues.map .leaf)),
    ("variable_info", .list (d.locals.map variableOutline))]

def flagsOutline (f : PrototypeFlags) : Outline :=
  .titled "Flags" [("_Flags__init", operation), ("has_ffi", flag f.hasFFI),
    ("has_iloop", flag f.hasILoop), ("has_jit", flag f.hasJIT),
    ("has_sub_prototypes", flag f.hasChildren), ("is_variadic", flag f.isVariadic)]

def itemOutline : TableItem → Outline
  | .nil => nothing
  | .bool b => flag b
  | .number n => .leaf n.text
  | .text s => .leaf s

def tableOutline (t : TableConstant) : Outline :=
  .titled "Table" [("array", .list (t.array.map itemOutline)),
    ("dictionary", .list (t.entries.map fun _ => pairOutline))]

mutual

def prototypeOutline : Prototype → Outline
  | ⟨flags, argumentCount, framesize, firstLine, lineCount, instructions, upvalues, complex,
      numbers, debug⟩ =>
    .titled "Prototype" [
      ("arguments_count", nat argumentCount),
      ("constants", .titled "Constants" [
        ("complex_constants", .list (complexOutlines complex)),
        ("numeric_constants", .list (numbers.map fun n => .leaf n.text)),
        ("upvalue_references", .list (upvalues.map nat))]),
      ("debuginfo", debugOutline debug), ("first_line_number", nat firstLine),
      ("flags", flagsOutline flags), ("framesize", nat framesize),
      ("instructions", .list (instructions.map instructionOutline)),
      ("lines_count", nat lineCount)]

def complexOutlines : List (Complex Prototype) → List Outline
  | [] => []
  | .child p :: cs => prototypeOutline p :: complexOutlines cs
  | .text s :: cs => .leaf s :: complexOutlines cs
  | .number n :: cs => .leaf n.text :: complexOutlines cs
  | .pair _ _ :: cs => pairOutline :: complexOutlines cs
  | .table t :: cs => tableOutline t :: complexOutlines cs

end

end LuaLift.Dump
