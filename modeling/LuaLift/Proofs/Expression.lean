import LuaLift.Lua.Writer
import LuaLift.Proofs.Returns

/-! # Expressions and how they are written

`Expr` is an expression as a tree, and `Spells` says that a node of a store is such a
tree, together with the nodes that it is made of. `Expr.pieces` is the text of an
expression as the pieces that are written one after the other. If no node stands in two
places, the writer emits exactly these pieces. -/
namespace LuaLift.Proofs
open Tree Lua

/-- An expression of operators, constants, variables, elements and calls. -/
inductive Expr where
  | name (x : String)
  | number (k : Int)
  | text (s : String)
  | unary (op : UnaryOp) (operand : Expr)
  | binary (op : BinaryOp) (left right : Expr)
  | element (table key : Expr)
  | call (function : Expr) (arguments : List Expr)

namespace Expr

/-- The operator code of an operator. -/
def code? : Expr → Option Int
  | unary op _ => some op.code
  | binary op _ _ => some op.code
  | _ => none

/-- Whether an operand of a binary operator stands in parentheses. -/
def enclosedIn (op : BinaryOp) (e : Expr) : Bool :=
  match e.code? with
  | some c => needsParentheses op.code c
  | none => false

/-- Whether the operand of a unary operator stands in parentheses. -/
def enclosedInUnary (op : UnaryOp) (e : Expr) : Bool :=
  match e.code? with
  | some c => c < op.code
  | none => false

/-- The name of a key that is written without brackets. -/
def bareKey? : Expr → Option String
  | text s => if isName s then some s else none
  | _ => none

def enclose (wanted : Bool) (ps : List String) : List String :=
  if wanted then "(" :: ps ++ [")"] else ps

mutual

/-- The text of an expression, piece by piece. -/
def pieces : Expr → List String
  | name x => [x]
  | number k => [toString k]
  | text s => [textLiteral s]
  | unary op e => unarySign op :: enclose (enclosedInUnary op e) (pieces e)
  | binary op l r => enclose (enclosedIn op l) (pieces l) ++ (binarySign op).getD "" ::
      enclose (enclosedIn op r) (pieces r)
  | element t k => pieces t ++
      match bareKey? k with
      | some x => [".", x]
      | none => "[" :: pieces k ++ ["]"]
  | call f as => pieces f ++ "(" :: piecesOfList as ++ [")"]

def piecesOfList : List Expr → List String
  | [] => []
  | [e] => pieces e
  | e :: es => pieces e ++ ", " :: piecesOfList es

end

/-- The text of an expression. -/
def chars (e : Expr) : List Char := e.pieces.flatMap String.toList

def spelling (e : Expr) : String := String.ofList e.chars

end Expr

/-- The text of a variable. -/
def identifierText (x : Identifier) : String :=
  match x.kind with
  | .slot => s!"slot{x.slot}"
  | _ => x.name.getD "None"

/-- The unary operators of expressions. -/
def isUnarySign : UnaryOp → Bool
  | .not | .length | .minus => true
  | _ => false

mutual

/-- Node `i` is the expression `e`, made of the nodes `ids`. An element of the table of
globals is a variable. -/
inductive Spells (s : Store) : NodeId → Expr → List NodeId → Prop
  | name {i x} : s.node i = .identifier x → Spells s i (.name (identifierText x)) [i]
  | number {i k} : s.node i = .constant .integer (.number (.int k)) → Spells s i (.number k) [i]
  | text {i t} : s.node i = .constant .text (.text t) → Spells s i (.text t) [i]
  | unary {i op a e ids} : s.node i = .unary op a → isUnarySign op → Spells s a e ids →
      Spells s i (.unary op e) (i :: ids)
  | binary {i op l r e e' ids ids'} : s.node i = .binary op l r → (binarySign op).isSome →
      Spells s l e ids → Spells s r e' ids' → Spells s i (.binary op e e') (i :: ids ++ ids')
  | global {i t k x} : s.node i = .element t k → isBuiltin (s.node t) →
      s.node k = .constant .text (.text x) → isName x → Spells s i (.name x) [i, t, k]
  | element {i t k e e' ids ids'} : s.node i = .element t k → isBuiltin (s.node t) = false →
      Spells s t e ids → Spells s k e' ids' → Spells s i (.element e e') (i :: ids ++ ids')
  | call {i f a as e es ids ids'} : s.node i = .call f a → s.node a = .list .expressions as →
      Spells s f e ids → SpellsAll s as es ids' →
      Spells s i (.call e es) (i :: ids ++ a :: ids')

inductive SpellsAll (s : Store) : List NodeId → List Expr → List NodeId → Prop
  | nil : SpellsAll s [] [] []
  | cons {i as e es ids ids'} : Spells s i e ids → SpellsAll s as es ids' →
      SpellsAll s (i :: as) (e :: es) (ids ++ ids')

end

section
variable {s : Store} {i : NodeId} {e : Expr} {ids : List NodeId}

theorem Spells.mem (h : Spells s i e ids) : i ∈ ids := by
  cases h <;> simp

theorem Spells.ne_absent (h : Spells s i e ids) : s.node i ≠ .absent := by
  cases h <;> simp_all

theorem SpellsAll.subset {as : List NodeId} {es : List Expr} (h : SpellsAll s as es ids) :
    ∀ a ∈ as, a ∈ ids := by
  induction as generalizing es ids with
  | nil => exact nofun
  | cons b as ih =>
    cases h with
    | cons hb hs =>
      intro a ha
      rcases List.mem_cons.mp ha with rfl | ha
      · exact List.mem_append_left _ hb.mem
      · exact List.mem_append_right _ (ih hs a ha)

mutual

theorem Spells.inside : ∀ {i : NodeId} {e : Expr} {ids : List NodeId}, Spells s i e ids →
    ∀ j ∈ ids, s.node j ≠ .absent
  | _, _, _, .name h => by simp [h]
  | _, _, _, .number h => by simp [h]
  | _, _, _, .text h => by simp [h]
  | _, _, _, .unary h _ ha => by
    intro j hj
    rcases List.mem_cons.mp hj with rfl | hj
    · simp [h]
    · exact Spells.inside ha j hj
  | _, _, _, .binary h _ hl hr => by
    intro j hj
    rcases List.mem_cons.mp hj with rfl | hj
    · simp [h]
    · rcases List.mem_append.mp hj with hj | hj
      · exact Spells.inside hl j hj
      · exact Spells.inside hr j hj
  | _, _, _, .global (t := t) h hb hk _ => by
    intro j hj
    simp only [List.mem_cons, List.not_mem_nil, or_false] at hj
    rcases hj with rfl | rfl | rfl
    · simp [h]
    · intro ha
      rw [ha] at hb; cases hb
    · simp [hk]
  | _, _, _, .element h _ ht hk => by
    intro j hj
    rcases List.mem_cons.mp hj with rfl | hj
    · simp [h]
    · rcases List.mem_append.mp hj with hj | hj
      · exact Spells.inside ht j hj
      · exact Spells.inside hk j hj
  | _, _, _, .call h ha hf has => by
    intro j hj
    rcases List.mem_cons.mp hj with rfl | hj
    · simp [h]
    · rcases List.mem_append.mp hj with hj | hj
      · exact Spells.inside hf j hj
      · rcases List.mem_cons.mp hj with rfl | hj
        · simp [ha]
        · exact SpellsAll.inside has j hj

theorem SpellsAll.inside : ∀ {as : List NodeId} {es : List Expr} {ids : List NodeId},
    SpellsAll s as es ids → ∀ j ∈ ids, s.node j ≠ .absent
  | _, _, _, .nil => nofun
  | _, _, _, .cons h hs => by
    intro j hj
    rcases List.mem_append.mp hj with hj | hj
    · exact Spells.inside h j hj
    · exact SpellsAll.inside hs j hj

end

end

end LuaLift.Proofs
