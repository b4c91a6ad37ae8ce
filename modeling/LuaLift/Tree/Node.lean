import LuaLift.Bytecode.Prototype

/-! # Syntax nodes

A program is a graph of numbered nodes. Numbers and not subtrees link the nodes,
because a node may stand in several places and an exit of a block leads to another
block: which node it is counts, and not only what it looks like. -/
namespace LuaLift.Tree

structure NodeId where
  index : Nat
deriving DecidableEq, Repr, Inhabited, Hashable

/-- The number that stands for a missing node. -/
def NodeId.absent : NodeId := ⟨0⟩

inductive AssignmentKind where
  | localDefinition
  | normal
  | other (code : Int)
deriving DecidableEq, Repr, Inhabited

inductive BinaryOp where
  | or | and
  | less | greater | lessEqual | greaterEqual | notEqual | equal
  | concat
  | add | subtract
  | multiply | divide | mod
  | pow
  | other (code : Int)
deriving DecidableEq, Repr, Inhabited

inductive UnaryOp where
  | not | length | minus
  /-- a check that the operand is a string -/
  | toText
  /-- a check that the operand is a number -/
  | toNumber
  | other (code : Int)
deriving DecidableEq, Repr, Inhabited

inductive IdentifierKind where
  /-- a slot of the frame that has no name -/
  | slot
  | named
  | upvalue
  | builtin
  | other (code : Int)
deriving DecidableEq, Repr, Inhabited

inductive ConstantKind where
  | integer | float | text | cdata
  | other (code : Int)
deriving DecidableEq, Repr, Inhabited

inductive PrimitiveKind where
  | nil | true | false
  | other (code : Int)
deriving DecidableEq, Repr, Inhabited

/-- How a block passes control to another. -/
inductive JumpKind where
  | jump
  /-- the next block simply follows -/
  | flow
  | other (code : Int)
deriving DecidableEq, Repr, Inhabited

/-- Binding strength of an operator: tens are classes of equal strength. -/
def BinaryOp.code : BinaryOp → Int
  | .or => 0
  | .and => 10
  | .less => 20
  | .greater => 21
  | .lessEqual => 22
  | .greaterEqual => 23
  | .notEqual => 24
  | .equal => 25
  | .concat => 30
  | .add => 40
  | .subtract => 41
  | .multiply => 50
  | .divide => 51
  | .mod => 52
  | .pow => 70
  | .other c => c

def UnaryOp.code : UnaryOp → Int
  | .not => 60
  | .length => 61
  | .minus => 62
  | .toText => 63
  | .toNumber => 64
  | .other c => c

inductive ListKind where
  | statements | identifiers | records | targets | expressions
deriving DecidableEq, Repr, Inhabited

inductive Literal where
  | absent
  | number (n : Number)
  | text (s : String)
  | pair (re im : Number)
  /-- a table or a function, which has no text of its own -/
  | object
deriving DecidableEq, Repr, Inhabited

structure Identifier where
  name : Option String := none
  kind : IdentifierKind := .other (-1)
  slot : Int := -1
  /-- the variable that the identifier names -/
  info : Option Bytecode.Variable := none
deriving DecidableEq, Repr, Inhabited

/-- What a function remembers of its bytecode. -/
structure Scope where
  debug : Option Bytecode.DebugInfo := none
  instructionCount : Int := 0
deriving DecidableEq, Repr, Inhabited

/-- A basic block: statements, and an exit to other blocks. -/
structure Block where
  index : Int := -1
  exit : NodeId := NodeId.absent
  contents : List NodeId := []
  first : Int := 0
  last : Int := 0
  /-- number of exits that lead to the block -/
  entries : Int := 0
deriving DecidableEq, Repr, Inhabited

/-- A node. Links are numbers of nodes; the targets of exits are blocks. -/
inductive Node where
  | absent
  | function (arguments statements : NodeId) (scope : Scope)
  | table (array records : NodeId)
  | arrayRecord (value : NodeId)
  | tableRecord (key value : NodeId)
  | assignment (kind : AssignmentKind) (expressions destinations : NodeId)
  | binary (op : BinaryOp) (left right : NodeId)
  | unary (op : UnaryOp) (operand : NodeId)
  | list (kind : ListKind) (items : List NodeId)
  | identifier (id : Identifier)
  /-- the results of the last call or vararg, of unknown number -/
  | multres
  | element (table key : NodeId)
  | vararg
  | call (function arguments : NodeId)
  | ifElse (condition thenBlock : NodeId) (elseIfs : List NodeId) (elseBlock : NodeId)
  | elseIf (condition thenBlock : NodeId)
  | block (b : Block)
  /-- exit to `target`; `closes` if it also closes upvalues -/
  | jump (kind : JumpKind) (target : NodeId) (closes : Bool)
  /-- exit on a condition; `slot` holds the tested value -/
  | test (condition onTrue onFalse : NodeId) (slot : Option Int)
  /-- exit of a loop over an iterator -/
  | iterate (targets controls body wayOut : NodeId)
  /-- exit of a loop over numbers -/
  | count (index controls body wayOut : NodeId)
  /-- end of the function, or of a part cut out of it that would go on at `target` -/
  | stop (target : NodeId)
  | ret (values : NodeId)
  | breakLoop
  | whileLoop (condition statements : NodeId)
  | repeatLoop (condition statements : NodeId)
  | numericFor (index expressions statements : NodeId)
  | iteratorFor (expressions identifiers statements : NodeId)
  | constant (kind : ConstantKind) (value : Literal)
  | primitive (kind : PrimitiveKind)
deriving DecidableEq, Repr, Inhabited

namespace Node

/-- The single links of a node, in the order in which they are searched. -/
def fields : Node → List NodeId
  | function a b _ | table a b | tableRecord a b | assignment _ a b | binary _ a b
  | element a b | call a b | elseIf a b | whileLoop a b | repeatLoop a b => [a, b]
  | arrayRecord a | unary _ a | jump _ a _ | stop a | ret a => [a]
  | ifElse a b _ c | test a b c _ | numericFor a b c | iteratorFor a b c => [a, b, c]
  | iterate a b c d | count a b c d => [a, b, c, d]
  | block b => [b.exit]
  | _ => []

/-- The listed links of a node. -/
def items : Node → List NodeId
  | list _ xs => xs
  | block b => b.contents
  | ifElse _ _ xs _ => xs
  | _ => []

/-- The same kind of node with other links. -/
def rebuild : Node → List NodeId → List NodeId → Node
  | function _ _ s, [a, b], _ => function a b s
  | table .., [a, b], _ => table a b
  | tableRecord .., [a, b], _ => tableRecord a b
  | assignment k .., [a, b], _ => assignment k a b
  | binary o .., [a, b], _ => binary o a b
  | element .., [a, b], _ => element a b
  | call .., [a, b], _ => call a b
  | elseIf .., [a, b], _ => elseIf a b
  | whileLoop .., [a, b], _ => whileLoop a b
  | repeatLoop .., [a, b], _ => repeatLoop a b
  | arrayRecord _, [a], _ => arrayRecord a
  | unary o _, [a], _ => unary o a
  | jump k _ c, [a], _ => jump k a c
  | stop _, [a], _ => stop a
  | ret _, [a], _ => ret a
  | ifElse .., [a, b, c], xs => ifElse a b xs c
  | test _ _ _ s, [a, b, c], _ => test a b c s
  | numericFor .., [a, b, c], _ => numericFor a b c
  | iteratorFor .., [a, b, c], _ => iteratorFor a b c
  | iterate .., [a, b, c, d], _ => iterate a b c d
  | count .., [a, b, c, d], _ => count a b c d
  | block b, [a], xs => block { b with exit := a, contents := xs }
  | list k _, _, xs => list k xs
  | n, _, _ => n

def mapLinks (f : NodeId → NodeId) (n : Node) : Node := n.rebuild (n.fields.map f) (n.items.map f)

/-- Replaces the first single link that is `old`. -/
def replaceField? (old new : NodeId) (n : Node) : Option Node :=
  match n.fields.idxOf? old with
  | some k => some (n.rebuild (n.fields.set k new) n.items)
  | none => none

/-- The parts of a node in the order in which they run. The targets of exits are
not parts. -/
def children : Node → List NodeId
  | function a s _ => [a, s]
  | table a r => [a, r]
  | arrayRecord v => [v]
  | tableRecord k v => [k, v]
  | assignment _ es ds => [es, ds]
  | binary _ l r => [l, r]
  | unary _ x => [x]
  | list _ xs => xs
  | element t k => [k, t]
  | call f as => [as, f]
  | ifElse c t xs e => c :: t :: xs ++ [e]
  | elseIf c t => [c, t]
  | block b => b.contents ++ [b.exit]
  | test c _ _ _ => [c]
  | iterate vs cs _ _ => [vs, cs]
  | count i cs _ _ => [i, cs]
  | ret vs => [vs]
  | whileLoop c s => [c, s]
  | repeatLoop c s => [s, c]
  | numericFor v es s => [v, es, s]
  | iteratorFor es is s => [es, is, s]
  | _ => []

def isStatement : Node → Bool
  | assignment .. | ifElse .. | iteratorFor .. | numericFor .. | repeatLoop .. | ret ..
  | breakLoop | call .. | whileLoop .. => true
  | _ => false

def isExpression : Node → Bool
  | call .. | primitive .. | constant .. | identifier .. | function .. | table .. | vararg
  | binary .. | unary .. | multres | element .. => true
  | _ => false

def isVariable : Node → Bool
  | identifier .. | element .. | multres => true
  | _ => false

def isExit : Node → Bool
  | jump .. | test .. | iterate .. | count .. | stop .. => true
  | _ => false

def isList (kind : ListKind) : Node → Bool
  | list k _ => k == kind
  | _ => false

def operatorCode? : Node → Option Int
  | binary o _ _ => some o.code
  | unary o _ => some o.code
  | _ => none

def isFlow : Node → Bool
  | jump .flow _ _ => true
  | _ => false

def isJump : Node → Bool
  | jump .jump _ _ => true
  | _ => false

end Node

end LuaLift.Tree
