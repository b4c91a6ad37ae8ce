import LuaLift.Sample.Assembly

/-! # Sample programs

Small dumps, each with a construct that a decompiler has to recover. -/
namespace LuaLift.Sample
open Bytecode Dump

/-! ## Expressions -/

/-- The element at a position, counted round and round. -/
def pick {α : Type} (fallback : α) (xs : List α) (i : Nat) : α := xs.getD (i % xs.length) fallback

def arithmeticTexts : List String :=
  ["print", "x", "y", "z", "field", "msg\n\tline\"q", "hello\nmulti\nline\nstring"]

/-- The `i`-th group of arithmetic instructions: with the constant on the right, with the
constant on the left, without a constant, and a store. -/
def arithmeticGroup (i : Nat) : List Bytes :=
  [abc (pick .addvn [.addvn, .subvn, .mulvn, .divvn, .modvn] i) 3 0 (i % 3 : Nat),
   abc (pick .addnv [.addnv, .subnv, .mulnv, .divnv, .modnv] i) 3 1 (i % 3 : Nat),
   abc (pick .addvv [.addvv, .subvv, .mulvv, .divvv, .modvv, .pow] i) 3 0 1,
   ad .gset 3 (textOperand arithmeticTexts "z")]

/-- Arithmetic of `n` groups, then constants of all kinds, a table, a call, variable
arguments and a return. -/
def arithmetic (n : Nat) : Bytes :=
  let k := textOperand arithmeticTexts
  script 12 (arithmeticTexts.map Encode.text)
    [Encode.number (.int 7), Encode.number (.double 0x400c000000000000),
     Encode.number (.int (-2147483647))]
    ([ad .gget 0 (k "x"), ad .gget 1 (k "y"), ad .gget 2 (k "z")]
    ++ (List.range n).flatMap arithmeticGroup
    ++ [ad .not 4 0, ad .unm 4 0, ad .len 4 0, ad .mov 4 0,
      ad .kstr 5 (k "msg\n\tline\"q"), ad .kstr 5 (k "hello\nmulti\nline\nstring"),
      ad .kshort 5 (-32767), ad .knum 5 1, ad .knum 5 2,
      ad .kpri 5 2, ad .kpri 5 1, ad .kpri 5 0, ad .knil 5 7,
      ad .kstr 5 (k "field"), ad .kstr 6 (k "field"), ad .kstr 7 (k "field"), abc .cat 4 5 7,
      ad .tnew 5 0, abc .tsets 0 5 (k "field"), abc .tsetb 1 5 1, abc .tsetv 2 5 0,
      abc .tgets 6 5 (k "field"), abc .tgetb 6 5 1, abc .tgetv 6 5 0,
      ad .gget 6 (k "print"), ad .mov 7 0, ad .mov 8 1, abc .call 6 2 3,
      abc .varg 6 3 0, abc .varg 6 0 0, ad .ret 0 4, ad .ret0 0 1])

/-- `b = x or y` and `b = x and y`. -/
def shortCircuit : Bytes :=
  let texts := ["x", "y", "b"]
  let k := textOperand texts
  textScript 5 texts [ad .gget 0 (k "x"), ad .gget 1 (k "y"),
    ad .istc 2 0, go .jmp 3 1, ad .mov 2 1, ad .gset 2 (k "b"),
    ad .isfc 2 0, go .jmp 3 1, ad .mov 2 1, ad .gset 2 (k "b"), ad .ret0 0 1]

/-- `b = x or y or z` and `b = x and y and z`. -/
def shortCircuitChain : Bytes :=
  let texts := ["x", "y", "z", "b"]
  let k := textOperand texts
  let chain := fun op => [ad op 3 0, go .jmp 4 3, ad op 3 1, go .jmp 4 1, ad .mov 3 2,
    ad .gset 3 (k "b")]
  textScript 6 texts ([ad .gget 0 (k "x"), ad .gget 1 (k "y"), ad .gget 2 (k "z")]
    ++ chain .istc ++ chain .isfc ++ [ad .ret0 0 1])

/-- Comparisons whose results are stored. -/
def comparisonValues : Bytes :=
  let texts := ["x", "y", "b"]
  let k := textOperand texts
  let store := [ad .kpri 2 1, go .jmp 3 1, ad .kpri 2 2, ad .gset 2 (k "b")]
  textScript 5 texts ([ad .gget 0 (k "x"), ad .gget 1 (k "y"), ad .islt 0 1, go .jmp 2 2]
    ++ store ++ [ad .isge 0 1, go .jmp 2 4, ad .islt 1 0, go .jmp 2 2]
    ++ store ++ [ad .ret0 0 1])

/-- Constants that are no Lua values: a number of 64 bits and a complex number. -/
def wideNumbers : Bytes :=
  let g := Encode.constantIndex 3 2
  script 2 [Encode.wide 1, Encode.pair 0 0, Encode.text "g"] []
    [ad .kcdata 0 (Encode.constantIndex 3 0), ad .gset 0 g,
     ad .kcdata 0 (Encode.constantIndex 3 1), ad .gset 0 g, ad .ret0 0 1]

/-! ## Tables and calls -/

/-- A table constant that is copied, completed and passed on. -/
def tableLiteral : Bytes :=
  let literal : TableConstant :=
    { array := [.nil, .bool true, .bool false, .number (.int 42),
        .number (.double 0x4008000000000000), .text "hey"]
      entries := [(.text "name", .text "bob"), (.text "!bad key", .number (.int 1)),
        (.number (.int 7), .bool true)] }
  let extra := Encode.constantIndex 3 2
  script 6 [Encode.table literal, Encode.text "print", Encode.text "extra"] []
    [ad .tdup 0 (Encode.constantIndex 3 0), ad .kshort 1 99, abc .tsets 1 0 extra,
     ad .gget 1 (Encode.constantIndex 3 1), ad .mov 2 0, abc .call 1 1 2,
     abc .tgets 1 0 extra, ad .mov 2 0, abc .call 1 1 2, ad .ret1 0 2]

/-- A new table that is filled item by item. -/
def filledTable : Bytes :=
  let texts := ["name", "t"]
  let k := textOperand texts
  textScript 4 texts [ad .tnew 0 0,
    ad .kshort 1 10, abc .tsetb 1 0 1, ad .kshort 1 20, abc .tsetb 1 0 2,
    ad .kshort 1 30, abc .tsetb 1 0 9, ad .kshort 1 40, abc .tsets 1 0 (k "name"),
    ad .kshort 1 50, abc .tsetb 1 0 1, ad .gset 0 (k "t"), ad .ret0 0 1]

/-- New tables whose filling is interrupted by other assignments. -/
def interruptedFill : Bytes :=
  let texts := ["t", "u", "a"]
  let k := textOperand texts
  textScript 6 texts [ad .tnew 0 0, ad .kshort 1 1, abc .tsetb 1 0 1, ad .knil 2 3,
    ad .gset 0 (k "u"), ad .tnew 0 0, ad .kshort 1 1, abc .tsetb 1 0 1,
    ad .gget 2 (k "a"), ad .kshort 1 9, abc .tsetb 1 2 1, ad .gset 0 (k "t"), ad .ret0 0 1]

/-- Calls and returns of as many values as there are. -/
def openCalls : Bytes :=
  let texts := ["f", "g"]
  let k := textOperand texts
  script 6 (texts.map Encode.text) [Encode.number (.int 0)]
    [ad .tnew 0 0, ad .gget 1 (k "f"), abc .varg 2 0 0, abc .callm 1 0 0, ad .tsetm 1 0,
     ad .gset 0 (k "g"), ad .gget 0 (k "g"), abc .varg 1 0 0, ad .retm 0 1, ad .ret0 0 1]

/-! ## Branches -/

def branchTexts : List String := ["print", "x", "y", "hello"]

/-- The comparisons that `branches` goes through, with their second operands: a slot, a
text, a number or nil. -/
def comparisons : List (Opcode × Int) :=
  let hello := textOperand branchTexts "hello"
  [(.islt, 1), (.isge, 1), (.isle, 1), (.isgt, 1), (.iseqv, 1), (.isnev, 1),
   (.iseqs, hello), (.isnes, hello), (.iseqn, 0), (.isnen, 0), (.iseqp, 0), (.isnep, 0)]

/-- A call with a text, in the slots from 2 on. -/
def greeting : List Bytes :=
  let k := textOperand branchTexts
  [ad .gget 2 (k "print"), ad .kstr 3 (k "hello"), abc .call 2 1 2]

/-- `n` branches with two sides, at least one. -/
def branches (n : Nat) : Bytes :=
  let k := textOperand branchTexts
  script 6 (branchTexts.map Encode.text) [Encode.number (.int 100)]
    ([ad .gget 0 (k "x"), ad .gget 1 (k "y")]
    ++ (List.range (max 1 n)).flatMap (fun i =>
      let (op, d) := pick (.islt, 1) comparisons i
      [ad op 0 d, go .jmp 2 4] ++ greeting ++ [go .jmp 2 3] ++ greeting)
    ++ [ad .ret0 0 1])

def caseText (i : Nat) : String := if i < 10 then s!"v0{i}" else s!"v{i}"

/-- A chain of `n` cases, told apart by a text, and a last one. -/
def elseifChain (n : Nat) : Bytes :=
  let texts := (List.range n).map caseText ++ ["a", "print"]
  let k := textOperand texts
  let say := fun s => [ad .gget 1 (k "print"), ad .kstr 2 (k s), abc .call 1 1 2]
  textScript 4 texts ([ad .gget 0 (k "a")]
    ++ (List.range n).flatMap (fun i =>
      [ad .isnes 0 (k (caseText i)), go .jmp 1 4] ++ say (caseText i)
        ++ [go .jmp 1 (6 * (n - 1 - i) + 3 : Nat)])
    ++ say "a" ++ [ad .ret0 0 1])

def nestedBranch : Bytes :=
  let texts := ["x", "y", "print", "msg"]
  let k := textOperand texts
  let say := [ad .gget 2 (k "print"), ad .kstr 3 (k "msg"), abc .call 2 1 2]
  textScript 5 texts ([ad .gget 0 (k "x"), ad .gget 1 (k "y"), ad .isge 0 1, go .jmp 2 11,
    ad .isge 1 0, go .jmp 2 4] ++ say ++ [go .jmp 2 3] ++ say
    ++ [ad .gget 2 (k "print"), abc .call 2 1 1, ad .ret0 0 1])

/-- A branch on a condition of three comparisons. -/
def compoundCondition : Bytes :=
  let texts := ["x", "y", "z", "print"]
  let k := textOperand texts
  let say := [ad .gget 3 (k "print"), abc .call 3 1 1]
  textScript 6 texts ([ad .gget 0 (k "x"), ad .gget 1 (k "y"), ad .gget 2 (k "z"),
    ad .isge 0 1, go .jmp 3 2, ad .islt 1 2, go .jmp 3 2, ad .isge 2 0, go .jmp 3 3]
    ++ say ++ [go .jmp 3 2] ++ say ++ [ad .ret0 0 1])

/-! ## Loops -/

def numericFor : Bytes :=
  textScript 8 ["print"] [ad .kshort 0 1, ad .kshort 1 100, ad .kshort 2 1, go .fori 0 4,
    ad .gget 4 0, ad .mov 5 3, abc .call 4 1 2, go .forl 0 (-4), ad .ret0 0 1]

def genericFor : Bytes :=
  let texts := ["pairs", "t", "print"]
  let k := textOperand texts
  textScript 10 texts [ad .gget 0 (k "pairs"), ad .gget 1 (k "t"), abc .call 0 4 2,
    go .isnext 3 4, ad .gget 5 (k "print"), ad .mov 6 3, ad .mov 7 4, abc .call 5 1 3,
    abc .itern 3 3 3, go .iterl 3 (-6), ad .ret0 0 1]

def whileLoop : Bytes :=
  let texts := ["print", "x"]
  let k := textOperand texts
  script 6 (texts.map Encode.text) [Encode.number (.int 1)]
    [ad .gget 0 (k "x"), ad .isge 0 0, go .jmp 1 6, go .loop 1 6,
     ad .gget 1 (k "print"), ad .mov 2 0, abc .call 1 1 2, abc .addvn 0 0 0, go .jmp 1 (-8),
     ad .gget 1 (k "print"), abc .call 1 1 1, ad .ret0 0 1]

def repeatLoop : Bytes :=
  let texts := ["print", "x"]
  let k := textOperand texts
  script 6 (texts.map Encode.text) [Encode.number (.int 1)]
    [ad .gget 0 (k "x"), go .loop 1 6,
     ad .gget 1 (k "print"), ad .mov 2 0, abc .call 1 1 2, abc .addvn 0 0 0,
     ad .islt 0 0, go .jmp 1 (-7),
     ad .gget 1 (k "print"), abc .call 1 1 1, ad .ret0 0 1]

def nestedWhile : Bytes :=
  let texts := ["x", "print"]
  let k := textOperand texts
  textScript 4 texts [ad .gget 0 (k "x"), ad .isge 0 0, go .jmp 1 9, go .loop 1 9,
    ad .isge 0 0, go .jmp 1 4, go .loop 1 4, ad .gget 1 (k "print"), abc .call 1 1 1,
    go .jmp 1 (-6), ad .gget 1 (k "print"), go .jmp 1 (-11), ad .ret0 0 1]

/-! ## Names -/

def namedLocals : Bytes :=
  namedScript 8 ["print"] [ad .kshort 0 1, ad .kshort 1 2, abc .addvv 2 0 1, ad .gget 3 0,
    ad .mov 4 0, ad .mov 5 1, ad .mov 6 2, abc .call 3 1 4, ad .ret0 0 1]
    [(.name "a", 2, 9), (.name "b", 0, 9), (.name "c", 0, 9)]

/-- A definition and an assignment of two variables at once. -/
def multipleAssignment : Bytes :=
  let both := [ad .gget 2 0, abc .call 2 3 1, ad .mov 1 3, ad .mov 0 2]
  namedScript 6 ["f"] (both ++ both ++ [ad .ret0 0 1]) [(.name "a", 3, 9), (.name "b", 0, 9)]

/-- A numeric loop and a loop over pairs, with the names of their variables. -/
def namedLoops : Bytes :=
  let texts := ["pairs", "t", "print"]
  let k := textOperand texts
  namedScript 10 texts
    [ad .kshort 0 1, ad .kshort 1 10, ad .kshort 2 1, go .fori 0 4,
     ad .gget 4 (k "print"), ad .mov 5 3, abc .call 4 1 2, go .forl 0 (-4),
     ad .gget 0 (k "pairs"), ad .gget 1 (k "t"), abc .call 0 4 2, go .jmp 3 4,
     ad .gget 5 (k "print"), ad .mov 6 3, ad .mov 7 4, abc .call 5 1 3,
     abc .iterc 3 3 3, go .iterl 3 (-6), ad .ret0 0 1]
    [(.internal 1, 5, 4), (.internal 2, 0, 4), (.internal 3, 0, 4), (.name "i", 0, 4),
     (.internal 4, 7, 7), (.internal 5, 0, 7), (.internal 6, 0, 7),
     (.name "k", 1, 4), (.name "v", 0, 4)]

/-! ## Dumps that are not in order -/

/-- Dumps with a wrong magic number, a wrong version, unknown flags, a record that is cut
off, unknown flags of a record, and a byte order that its instructions do not have. -/
def malformed : List Bytes :=
  let last := Encode.record
    { flags := 0, argumentCount := 0, framesize := 1, instructions := [ad .ret0 0 1] }
  [[0x1b, 0x58, 0x58, 2, 2, 0],
   Header.magic ++ [0xff, 2, 0],
   Header.magic ++ [2, 0x7f, 0],
   Header.magic ++ [2, 2, 0x7f, 1],
   Header.magic ++ [2, 2, 5, 0xff, 0, 1, 0, 0, 0],
   Header.magic ++ [2, 3] ++ last ++ [0]]

end LuaLift.Sample
