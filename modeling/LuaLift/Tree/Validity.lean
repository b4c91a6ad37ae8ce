import LuaLift.Tree.Store

/-! # Valid trees

A tree is valid if every node has parts of the kinds that its own kind asks for.
Before the control flow is structured, lists of statements hold blocks; afterwards
they hold statements. -/
namespace LuaLift.Tree

/-- Which nodes may stand as parts of a node. -/
structure PartRule where
  /-- rules for certain parts; of several for one part the last counts -/
  special : List (NodeId × (Node → Bool)) := []
  /-- rule for all other parts, of which there may be none -/
  general : Option (Node → Bool) := none

def PartRule.allows (r : PartRule) (i : NodeId) (n : Node) : Bool :=
  match r.special.reverse.find? (·.1 == i) with
  | some (_, fits) => fits n
  | none => match r.general with
    | some fits => fits n
    | none => false

def isBlockNode : Node → Bool
  | .block _ => true
  | _ => false

def isElseIfNode : Node → Bool
  | .elseIf .. => true
  | _ => false

def isIdentifierNode : Node → Bool
  | .identifier _ => true
  | _ => false

def isArrayRecordNode : Node → Bool
  | .arrayRecord _ => true
  | _ => false

def isTableRecordNode : Node → Bool
  | .tableRecord .. => true
  | _ => false

def isRecordNode : Node → Bool
  | .tableRecord .. | .arrayRecord _ | .call .. | .vararg => true
  | _ => false

def demand (holds : Bool) (rule : String) : Except Fault Unit :=
  if holds then .ok () else .error (.broken rule)

/-- Records of one list: array records only, or table records with anything else at
the end only. -/
def validRecords : List Node → Bool
  | [] => true
  | n :: ns =>
    if isArrayRecordNode n then ns.all isArrayRecordNode
    else (n :: ns).dropLast.all isTableRecordNode

def blockIndex? : Node → Option Int
  | .block b => some b.index
  | _ => none

/-- What a node asks of itself and of its parts. -/
def partRule (s : Store) (warped : Bool) (n : Node) : Except Fault PartRule :=
  let expressions := Node.isExpression
  let isStatements := Node.isList .statements
  let isExpressions := Node.isList .expressions
  let isVariables := Node.isList .targets
  match n with
  | .function a ss _ =>
    .ok ⟨[(a, Node.isList .identifiers), (ss, isStatements)], some isBlockNode⟩
  | .table .. => .ok ⟨[], some (Node.isList .records)⟩
  | .arrayRecord _ | .tableRecord .. | .element .. => .ok ⟨[], some expressions⟩
  | .assignment _ es ds =>
    match s.node ds with
    | .list _ (_ :: _) => .ok ⟨[(ds, isVariables), (es, isExpressions)], none⟩
    | .block b => if b.contents.isEmpty then .error .outside else
      .ok ⟨[(ds, isVariables), (es, isExpressions)], none⟩
    | .list _ [] => .error .outside
    | _ => .error .noPart
  | .binary o _ _ => do
    demand (match o with | .other _ => false | _ => true) "a binary operator is a known one"
    return ⟨[], some expressions⟩
  | .unary o _ => do
    demand (o == .not || o == .length || o == .minus) "a unary operator is a known one"
    return ⟨[], some expressions⟩
  | .list .statements _ => .ok ⟨[], some (if warped then isBlockNode else Node.isStatement)⟩
  | .list .identifiers _ =>
    .ok ⟨[], some fun n => isIdentifierNode n || n == .vararg⟩
  | .list .records xs => do
    demand (validRecords (xs.map s.node)) "a list of records is of one kind"
    return ⟨[], some isRecordNode⟩
  | .list .targets _ => .ok ⟨[], some Node.isVariable⟩
  | .list .expressions _ => .ok ⟨[], some expressions⟩
  | .identifier x => do
    demand (match x.kind with
      | .slot | .builtin | .upvalue => true
      | .named => x.name.isSome
      | .other _ => false) "an identifier is of a known kind, and a local variable has a name"
    demand (x.kind == .builtin || x.slot ≥ 0) "an identifier has a slot"
    return {}
  | .call f as => .ok ⟨[(f, Node.isVariable), (as, isExpressions)], none⟩
  | .ifElse c t _ e =>
    .ok ⟨[(c, expressions), (t, isStatements), (e, isStatements)], some isElseIfNode⟩
  | .elseIf c t => .ok ⟨[(c, expressions), (t, isStatements)], none⟩
  | .block b => do
    demand (b.index ≥ 0) "the index of a block is not negative"
    demand (b.first ≥ 0 && b.first ≤ b.last) "a block does not end before it starts"
    return ⟨[(b.exit, Node.isExit)], some Node.isStatement⟩
  | .jump k t _ => do
    demand (t != .absent) "a jump has a target"
    demand (k == .jump || k == .flow) "a jump is of a known kind"
    return {}
  | .test c t f _ => do
    demand (t != .absent) "a test has a target when it holds"
    demand (f != .absent) "a test has a target when it fails"
    return ⟨[(c, expressions)], none⟩
  | .iterate vs cs b w => do
    demand (b != .absent) "a loop has a body"
    demand (w != .absent) "a loop has a way out"
    match blockIndex? (s.node w), blockIndex? (s.node b) with
    | some wi, some bi => demand (wi > bi) "the way out of a loop is after its body"
    | _, _ => .error .noPart
    return ⟨[(vs, isVariables), (cs, isExpressions)], some isBlockNode⟩
  | .count i cs b w => do
    demand (b != .absent) "a loop has a body"
    demand (w != .absent) "a loop has a way out"
    return ⟨[(i, isIdentifierNode), (cs, isExpressions)], some isBlockNode⟩
  | .ret _ => .ok ⟨[], some isExpressions⟩
  | .whileLoop c ss | .repeatLoop c ss => .ok ⟨[(c, expressions), (ss, isStatements)], none⟩
  | .numericFor v es ss =>
    .ok ⟨[(es, isExpressions), (ss, isStatements), (v, Node.isVariable)], none⟩
  | .iteratorFor es is ss =>
    .ok ⟨[(es, isExpressions), (is, isVariables), (ss, isStatements)], none⟩
  | .constant k _ => do
    demand (match k with | .other _ => false | _ => true) "a constant is of a known kind"
    return {}
  | .primitive k => do
    demand (match k with | .other _ => false | _ => true) "a primitive is of a known kind"
    return {}
  | .multres | .vararg | .breakLoop | .stop _ | .absent => .ok {}

/-- Checks a part of a node and all below it, to a given depth. -/
def checkPart (s : Store) (warped : Bool) : Nat → Option PartRule → NodeId → Except Fault Unit
  | 0, _, _ => .error .tooDeep
  | depth + 1, rule, i => do
    let n := s.node i
    match rule with
    | some r => demand (r.allows i n) "a part of a node is of the kind that the node asks for"
    | none => pure ()
    demand (n != .absent) "a part of a node is missing"
    let r ← partRule s warped n
    n.children.forM (checkPart s warped depth (some r))

def Store.validate (s : Store) (warped : Bool) (root : NodeId) : Except Fault Unit :=
  checkPart s warped s.depth none root

def validate {σ : Type} (warped : Bool) (root : NodeId) : Pass σ Unit := do
  match (← get).store.validate warped root with
  | .ok () => return ()
  | .error e => throw e

end LuaLift.Tree
