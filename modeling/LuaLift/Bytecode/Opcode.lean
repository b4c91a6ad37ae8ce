/-! # Opcodes

An opcode says which operands an instruction has, what each of them stands for,
and how the instruction is described in a listing. -/
namespace LuaLift.Bytecode

/-- What an operand stands for. -/
inductive OperandKind where
  /-- a slot that is read -/
  | var
  /-- a slot that is written -/
  | dst
  /-- first of a run of slots, read and written -/
  | base
  /-- first of a run of slots, read only -/
  | readBase
  | upvalue
  | literal
  | signedLiteral
  /-- nil, false or true, as 0, 1 or 2 -/
  | primitive
  /-- index into the numeric constants -/
  | number
  /-- index of a text among the complex constants, counted from the end -/
  | text
  /-- index of a table among the complex constants, counted from the end -/
  | table
  /-- index of a child function among the complex constants, counted from the end -/
  | proto
  /-- index of a number among the complex constants, counted from the end -/
  | cdata
  /-- distance of a jump from the next instruction -/
  | jump
deriving DecidableEq, Repr, Inhabited

/-- A part of a description that depends on the operands. -/
inductive Hole where
  | a | b | c | d
  /-- slots B to C, joined by the concatenation operator -/
  | joinedBToC
  /-- slots A to D -/
  | fromAToD
  | arraySize | hashSize
  | aLess1 | aLess2 | aLess3
  | aPlus1 | aPlus2 | aPlus3
  | dLow
  /-- slots that take the results -/
  | results
  | openArguments | arguments | openTailArguments | tailArguments
  | openReturns | returns
deriving DecidableEq, Repr

def Hole.name : Hole → String
  | .a => "A"
  | .b => "B"
  | .c => "C"
  | .d => "D"
  | .joinedBToC => "concat_from_B_to_C"
  | .fromAToD => "from_A_to_D"
  | .arraySize => "D_array"
  | .hashSize => "D_dict"
  | .aLess1 => "A_minus_one"
  | .aLess2 => "A_minus_two"
  | .aLess3 => "A_minus_three"
  | .aPlus1 => "A_plus_one"
  | .aPlus2 => "A_plus_two"
  | .aPlus3 => "A_plus_three"
  | .dLow => "D_low"
  | .results => "from_A_x_B_minus_two"
  | .openArguments => "from_A_plus_one_x_C"
  | .arguments => "from_A_plus_one_x_C_minus_one"
  | .openTailArguments => "from_A_plus_one_x_D"
  | .tailArguments => "from_A_plus_one_x_D_minus_one"
  | .openReturns => "from_A_x_D_minus_one"
  | .returns => "from_A_x_D_minus_two"

/-- A description is text with holes. -/
inductive Piece where
  | text (s : String)
  | hole (h : Hole)
deriving DecidableEq, Repr

instance : Coe String Piece := ⟨.text⟩

instance : Coe Hole Piece := ⟨.hole⟩

/-- A description with the names of its holes in braces. -/
def Piece.template (ps : List Piece) : String :=
  String.join (ps.map fun
    | .text s => s
    | .hole h => "\x7b" ++ h.name ++ "\x7d")

/-- What is known of an opcode. -/
structure Shape where
  name : String
  a : Option OperandKind
  b : Option OperandKind
  cd : Option OperandKind
  description : List Piece

def Shape.operandCount (s : Shape) : Nat :=
  s.a.toList.length + s.b.toList.length + s.cd.toList.length

/-- The opcodes, in the order of their numbers. -/
inductive Opcode where
  | islt | isge | isle | isgt | iseqv | isnev | iseqs | isnes | iseqn | isnen | iseqp | isnep
  | istc | isfc | ist | isf | istype | isnum | mov | not | unm | len | addvn | subvn | mulvn
  | divvn | modvn | addnv | subnv | mulnv | divnv | modnv | addvv | subvv | mulvv | divvv
  | modvv | pow | cat | kstr | kcdata | kshort | knum | kpri | knil | uget | usetv | usets
  | usetn | usetp | uclo | fnew | tnew | tdup | gget | gset | tgetv | tgets | tgetb | tgetr
  | tsetv | tsets | tsetb | tsetr | tsetm | callm | call | callmt | callt | iterc | itern
  | varg | isnext | retm | ret | ret0 | ret1 | fori | jfori | forl | iforl | jforl | iterl
  | iiterl | jiterl | loop | iloop | jloop | jmp | funcf | ifuncf | jfuncf | funcv | ifuncv
  | jfuncv | funcc | funccw | unknw
deriving DecidableEq, Repr, Inhabited

def Opcode.all : List Opcode :=
  [.islt, .isge, .isle, .isgt, .iseqv, .isnev, .iseqs, .isnes, .iseqn, .isnen, .iseqp, .isnep,
   .istc, .isfc, .ist, .isf, .istype, .isnum, .mov, .not, .unm, .len, .addvn, .subvn, .mulvn,
   .divvn, .modvn, .addnv, .subnv, .mulnv, .divnv, .modnv, .addvv, .subvv, .mulvv, .divvv,
   .modvv, .pow, .cat, .kstr, .kcdata, .kshort, .knum, .kpri, .knil, .uget, .usetv, .usets,
   .usetn, .usetp, .uclo, .fnew, .tnew, .tdup, .gget, .gset, .tgetv, .tgets, .tgetb, .tgetr,
   .tsetv, .tsets, .tsetb, .tsetr, .tsetm, .callm, .call, .callmt, .callt, .iterc, .itern, .varg,
   .isnext, .retm, .ret, .ret0, .ret1, .fori, .jfori, .forl, .iforl, .jforl, .iterl, .iiterl,
   .jiterl, .loop, .iloop, .jloop, .jmp, .funcf, .ifuncf, .jfuncf, .funcv, .ifuncv, .jfuncv,
   .funcc, .funccw, .unknw]

def Opcode.number (o : Opcode) : Nat := o.ctorIdx

def Opcode.ofNumber? (n : Nat) : Option Opcode := Opcode.all[n]?

open Hole in
def Opcode.shape : Opcode → Shape
  | .islt => ⟨"ISLT", some .var, none, some .var,
    ["if ", a, " < ", d]⟩
  | .isge => ⟨"ISGE", some .var, none, some .var,
    ["if ", a, " >= ", d]⟩
  | .isle => ⟨"ISLE", some .var, none, some .var,
    ["if ", a, " <= ", d]⟩
  | .isgt => ⟨"ISGT", some .var, none, some .var,
    ["if ", a, " > ", d]⟩
  | .iseqv => ⟨"ISEQV", some .var, none, some .var,
    ["if ", a, " == ", d]⟩
  | .isnev => ⟨"ISNEV", some .var, none, some .var,
    ["if ", a, " ~= ", d]⟩
  | .iseqs => ⟨"ISEQS", some .var, none, some .text,
    ["if ", a, " == ", d]⟩
  | .isnes => ⟨"ISNES", some .var, none, some .text,
    ["if ", a, " ~= ", d]⟩
  | .iseqn => ⟨"ISEQN", some .var, none, some .number,
    ["if ", a, " == ", d]⟩
  | .isnen => ⟨"ISNEN", some .var, none, some .number,
    ["if ", a, " ~= ", d]⟩
  | .iseqp => ⟨"ISEQP", some .var, none, some .primitive,
    ["if ", a, " == ", d]⟩
  | .isnep => ⟨"ISNEP", some .var, none, some .primitive,
    ["if ", a, " ~= ", d]⟩
  | .istc => ⟨"ISTC", some .dst, none, some .var,
    [a, " = ", d, "; if ", d]⟩
  | .isfc => ⟨"ISFC", some .dst, none, some .var,
    [a, " = ", d, "; if not ", d]⟩
  | .ist => ⟨"IST", none, none, some .var,
    ["if ", d]⟩
  | .isf => ⟨"ISF", none, none, some .var,
    ["if not ", d]⟩
  | .istype => ⟨"ISTYPE", some .var, none, some .literal,
    [a, " = tostring(", d, "); if ", a]⟩
  | .isnum => ⟨"ISNUM", some .var, none, some .literal,
    [a, " = tonumber(", d, "); if ", a]⟩
  | .mov => ⟨"MOV", some .dst, none, some .var,
    [a, " = ", d]⟩
  | .not => ⟨"NOT", some .dst, none, some .var,
    [a, " = not ", d]⟩
  | .unm => ⟨"UNM", some .dst, none, some .var,
    [a, " = -", d]⟩
  | .len => ⟨"LEN", some .dst, none, some .var,
    [a, " = #", d]⟩
  | .addvn => ⟨"ADDVN", some .dst, some .var, some .number,
    [a, " = ", b, " + ", c]⟩
  | .subvn => ⟨"SUBVN", some .dst, some .var, some .number,
    [a, " = ", b, " - ", c]⟩
  | .mulvn => ⟨"MULVN", some .dst, some .var, some .number,
    [a, " = ", b, " * ", c]⟩
  | .divvn => ⟨"DIVVN", some .dst, some .var, some .number,
    [a, " = ", b, " / ", c]⟩
  | .modvn => ⟨"MODVN", some .dst, some .var, some .number,
    [a, " = ", b, " % ", c]⟩
  | .addnv => ⟨"ADDNV", some .dst, some .var, some .number,
    [a, " = ", c, " + ", b]⟩
  | .subnv => ⟨"SUBNV", some .dst, some .var, some .number,
    [a, " = ", c, " - ", b]⟩
  | .mulnv => ⟨"MULNV", some .dst, some .var, some .number,
    [a, " = ", c, " * ", b]⟩
  | .divnv => ⟨"DIVNV", some .dst, some .var, some .number,
    [a, " = ", c, " / ", b]⟩
  | .modnv => ⟨"MODNV", some .dst, some .var, some .number,
    [a, " = ", c, " % ", b]⟩
  | .addvv => ⟨"ADDVV", some .dst, some .var, some .var,
    [a, " = ", b, " + ", c]⟩
  | .subvv => ⟨"SUBVV", some .dst, some .var, some .var,
    [a, " = ", b, " - ", c]⟩
  | .mulvv => ⟨"MULVV", some .dst, some .var, some .var,
    [a, " = ", b, " * ", c]⟩
  | .divvv => ⟨"DIVVV", some .dst, some .var, some .var,
    [a, " = ", b, " / ", c]⟩
  | .modvv => ⟨"MODVV", some .dst, some .var, some .var,
    [a, " = ", b, " % ", c]⟩
  | .pow => ⟨"POW", some .dst, some .var, some .var,
    [a, " = ", b, " ^ ", c, " (pow)"]⟩
  | .cat => ⟨"CAT", some .dst, some .readBase, some .readBase,
    [a, " = ", joinedBToC]⟩
  | .kstr => ⟨"KSTR", some .dst, none, some .text,
    [a, " = ", d]⟩
  | .kcdata => ⟨"KCDATA", some .dst, none, some .cdata,
    [a, " = ", d]⟩
  | .kshort => ⟨"KSHORT", some .dst, none, some .signedLiteral,
    [a, " = ", d]⟩
  | .knum => ⟨"KNUM", some .dst, none, some .number,
    [a, " = ", d]⟩
  | .kpri => ⟨"KPRI", some .dst, none, some .primitive,
    [a, " = ", d]⟩
  | .knil => ⟨"KNIL", some .base, none, some .base,
    [fromAToD, " = nil"]⟩
  | .uget => ⟨"UGET", some .dst, none, some .upvalue,
    [a, " = ", d]⟩
  | .usetv => ⟨"USETV", some .upvalue, none, some .var,
    [a, " = ", d]⟩
  | .usets => ⟨"USETS", some .upvalue, none, some .text,
    [a, " = ", d]⟩
  | .usetn => ⟨"USETN", some .upvalue, none, some .number,
    [a, " = ", d]⟩
  | .usetp => ⟨"USETP", some .upvalue, none, some .primitive,
    [a, " = ", d]⟩
  | .uclo => ⟨"UCLO", some .readBase, none, some .jump,
    ["nil uvs >= ", a, "; goto ", d]⟩
  | .fnew => ⟨"FNEW", some .dst, none, some .proto,
    [a, " = function ", d]⟩
  | .tnew => ⟨"TNEW", some .dst, none, some .literal,
    [a, " = new table( array: ", arraySize, ", dict: ", hashSize, ")"]⟩
  | .tdup => ⟨"TDUP", some .dst, none, some .table,
    [a, " = copy ", d]⟩
  | .gget => ⟨"GGET", some .dst, none, some .text,
    [a, " = _env[", d, "]"]⟩
  | .gset => ⟨"GSET", some .var, none, some .text,
    ["_env[", d, "] = ", a]⟩
  | .tgetv => ⟨"TGETV", some .dst, some .var, some .var,
    [a, " = ", b, "[", c, "]"]⟩
  | .tgets => ⟨"TGETS", some .dst, some .var, some .text,
    [a, " = ", b, ".", c]⟩
  | .tgetb => ⟨"TGETB", some .dst, some .var, some .literal,
    [a, " = ", b, "[", c, "]"]⟩
  | .tgetr => ⟨"TGETR", some .dst, some .var, some .var,
    [a, " = ", b, "[", c, "]"]⟩
  | .tsetv => ⟨"TSETV", some .var, some .var, some .var,
    [b, "[", c, "] = ", a]⟩
  | .tsets => ⟨"TSETS", some .var, some .var, some .text,
    [b, ".", c, " = ", a]⟩
  | .tsetb => ⟨"TSETB", some .var, some .var, some .literal,
    [b, "[", c, "] = ", a]⟩
  | .tsetr => ⟨"TSETR", some .var, some .var, some .var,
    [b, "[", c, "] = ", a]⟩
  | .tsetm => ⟨"TSETM", some .base, none, some .number,
    ["for i = 0, MULTRES, 1 do ", aLess1, "[", dLow, " + i] = slot(", a, " + i)"]⟩
  | .callm => ⟨"CALLM", some .base, some .literal, some .literal,
    [results, " = ", a, "(", openArguments, ", ...MULTRES)"]⟩
  | .call => ⟨"CALL", some .base, some .literal, some .literal,
    [results, " = ", a, "(", arguments, ")"]⟩
  | .callmt => ⟨"CALLMT", some .base, none, some .literal,
    ["return ", a, "(", openTailArguments, ", ...MULTRES)"]⟩
  | .callt => ⟨"CALLT", some .base, none, some .literal,
    ["return ", a, "(", tailArguments, ")"]⟩
  | .iterc => ⟨"ITERC", some .base, some .literal, some .literal,
    [a, ", ", aPlus1, ", ", aPlus2, " = ", aLess3, ", ", aLess2, ", ",
     aLess1, "; ", results, " = ", aLess3, "(", aLess2, ", ", aLess1,
     ")"]⟩
  | .itern => ⟨"ITERN", some .base, some .literal, some .literal,
    [a, ", ", aPlus1, ", ", aPlus2, " = ", aLess3, ", ", aLess2, ", ",
     aLess1, "; ", results, " = ", aLess3, "(", aLess2, ", ", aLess1,
     ")"]⟩
  | .varg => ⟨"VARG", some .base, some .literal, some .literal,
    [results, " = ..."]⟩
  | .isnext => ⟨"ISNEXT", some .base, none, some .jump,
    ["Verify ITERN at ", d, "; goto ", d]⟩
  | .retm => ⟨"RETM", some .base, none, some .literal,
    ["return ", openReturns, ", ...MULTRES"]⟩
  | .ret => ⟨"RET", some .readBase, none, some .literal,
    ["return ", returns]⟩
  | .ret0 => ⟨"RET0", some .readBase, none, some .literal,
    ["return"]⟩
  | .ret1 => ⟨"RET1", some .readBase, none, some .literal,
    ["return ", a]⟩
  | .fori => ⟨"FORI", some .base, none, some .jump,
    ["for ", aPlus3, " = ", a, ",", aPlus1, ",", aPlus2, " else goto ",
     d]⟩
  | .jfori => ⟨"JFORI", some .base, none, some .jump,
    ["for ", aPlus3, " = ", a, ",", aPlus1, ",", aPlus2, " else goto ",
     d]⟩
  | .forl => ⟨"FORL", some .base, none, some .jump,
    [a, " = ", a, " + ", aPlus2, "; if cmp(", a, ", sign ", aPlus2,
     ",  ", aPlus1, ") goto ", d]⟩
  | .iforl => ⟨"IFORL", some .base, none, some .jump,
    [a, " = ", a, " + ", aPlus2, "; if cmp(", a, ", sign ", aPlus2,
     ", ", aPlus1, ") goto ", d]⟩
  | .jforl => ⟨"JFORL", some .base, none, some .jump,
    [a, " = ", a, " + ", aPlus2, "; if cmp(", a, ", sign ", aPlus2,
     ", ", aPlus1, ") goto ", d]⟩
  | .iterl => ⟨"ITERL", some .base, none, some .jump,
    [aLess1, " = ", a, "; if ", a, " != nil goto ", d]⟩
  | .iiterl => ⟨"IITERL", some .base, none, some .jump,
    [aLess1, " = ", a, "; if ", a, " != nil goto ", d]⟩
  | .jiterl => ⟨"JITERL", some .base, none, some .literal,
    [aLess1, " = ", a, "; if ", a, " != nil goto ", d]⟩
  | .loop => ⟨"LOOP", some .readBase, none, some .jump,
    ["Noop"]⟩
  | .iloop => ⟨"ILOOP", some .readBase, none, some .jump,
    ["Noop"]⟩
  | .jloop => ⟨"JLOOP", some .readBase, none, some .literal,
    ["Noop"]⟩
  | .jmp => ⟨"JMP", some .readBase, none, some .jump,
    ["\tgoto ", d]⟩
  | .funcf => ⟨"FUNCF", some .readBase, none, none,
    ["Fixed-arg function with frame size ", a]⟩
  | .ifuncf => ⟨"IFUNCF", some .readBase, none, none,
    ["Interpreted fixed-arg function with frame size ", a]⟩
  | .jfuncf => ⟨"JFUNCF", some .readBase, none, some .literal,
    ["JIT compiled fixed-arg function with frame size ", a]⟩
  | .funcv => ⟨"FUNCV", some .readBase, none, none,
    ["Var-arg function with frame size ", a]⟩
  | .ifuncv => ⟨"IFUNCV", some .readBase, none, none,
    ["Interpreted var-arg function with frame size ", a]⟩
  | .jfuncv => ⟨"JFUNCV", some .readBase, none, some .literal,
    ["JIT compiled var-arg function with frame size ", a]⟩
  | .funcc => ⟨"FUNCC", some .readBase, none, none,
    ["C function with frame size ", a]⟩
  | .funccw => ⟨"FUNCCW", some .readBase, none, none,
    ["Wrapped C function with frame size ", a]⟩
  | .unknw => ⟨"UNKNW", some .literal, some .literal, some .literal,
    ["Unknown instruction"]⟩

theorem Opcode.ofNumber?_number (o : Opcode) : Opcode.ofNumber? o.number = some o := by
  cases o <;> rfl

end LuaLift.Bytecode
