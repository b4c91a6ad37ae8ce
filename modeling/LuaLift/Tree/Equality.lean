import LuaLift.Tree.Store

/-! # Equal variables

Two variables are equal if they denote the same storage by their form: the same
slot, or equal elements of equal tables. -/
namespace LuaLift.Tree

def Literal.same : Literal → Literal → Bool
  | .absent, .absent => true
  | .number a, .number b => a.same b
  | .text a, .text b => a == b
  | .pair a b, .pair c d => a.same c && b.same d
  | _, _ => false

def Node.sameKind : Node → Node → Bool
  | .list k _, .list k' _ => k == k'
  | a, b => a.ctorIdx == b.ctorIdx

/-- Compares two variables to a given depth. Only identifiers, elements and
constants can be compared with their like. -/
def equalTo (s : Store) : Nat → NodeId → NodeId → Except Fault Bool
  | 0, _, _ => .error .tooDeep
  | depth + 1, a, b =>
    match s.node a, s.node b with
    | .identifier x, .identifier y => .ok (x.kind == y.kind && x.slot == y.slot)
    | .element t k, .element t' k' => do
      if ← equalTo s depth t t' then equalTo s depth k k' else return false
    | .constant k v, .constant k' v' => .ok (k == k' && v.same v')
    | x, y =>
      if x.sameKind y then .error (.broken "only variables and constants are compared")
      else .ok false

def Store.equal (s : Store) (a b : NodeId) : Except Fault Bool := equalTo s s.depth a b

def equal {σ : Type} (a b : NodeId) : Pass σ Bool := do
  match (← get).store.equal a b with
  | .ok r => return r
  | .error e => throw e

end LuaLift.Tree
