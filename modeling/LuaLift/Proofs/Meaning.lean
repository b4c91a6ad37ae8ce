import Mathlib.Order.Lattice
import LuaLift.Proofs.Growth

/-! # What conditions mean

`Denotes s v i x` gives the value of an expression node under a valuation of its
variables. `and` and `or` give one of their operands, as the language has it; values that
are compared are linearly ordered. A node that is only read keeps its value when the store
grows, and a copy has the value of its original. -/
namespace LuaLift.Proofs
open Tree

/-- Values, which of them count as true, and what variables and constants stand for. -/
structure Valuation (V : Type) where
  isTrue : V → Bool
  ofBool : Bool → V
  isTrue_ofBool : ∀ b, isTrue (ofBool b) = b
  ofVariable : Identifier → V
  ofConstant : ConstantKind → Literal → V
  ofPrimitive : PrimitiveKind → V

/-- The relation that a comparison tests. -/
def comparison {V : Type} [LinearOrder V] : BinaryOp → Option (V → V → Bool)
  | .less => some fun a b => decide (a < b)
  | .greater => some fun a b => decide (b < a)
  | .lessEqual => some fun a b => decide (a ≤ b)
  | .greaterEqual => some fun a b => decide (b ≤ a)
  | .notEqual => some fun a b => decide (a ≠ b)
  | .equal => some fun a b => decide (a = b)
  | _ => none

/-- The operators that compare. -/
def isComparison : BinaryOp → Bool
  | .less | .greater | .lessEqual | .greaterEqual | .notEqual | .equal => true
  | _ => false

/-- The truth of its first operand at which a logical operator ignores the second. -/
def stopsOn : BinaryOp → Option Bool
  | .or => some true
  | .and => some false
  | _ => none

/-- The value of an expression node. -/
inductive Denotes {V : Type} [LinearOrder V] (s : Store) (v : Valuation V) : NodeId → V → Prop
  | identifier {i x} : s.node i = .identifier x → Denotes s v i (v.ofVariable x)
  | constant {i k l} : s.node i = .constant k l → Denotes s v i (v.ofConstant k l)
  | primitive {i k} : s.node i = .primitive k → Denotes s v i (v.ofPrimitive k)
  | not {i a x} : s.node i = .unary .not a → Denotes s v a x → Denotes s v i (v.ofBool !v.isTrue x)
  | compare {i op l r f x y} : s.node i = .binary op l r → comparison op = some f →
      Denotes s v l x → Denotes s v r y → Denotes s v i (v.ofBool (f x y))
  | first {i op l r b x} : s.node i = .binary op l r → stopsOn op = some b →
      Denotes s v l x → v.isTrue x = b → Denotes s v i x
  | second {i op l r b x y} : s.node i = .binary op l r → stopsOn op = some b →
      Denotes s v l x → v.isTrue x ≠ b → Denotes s v r y → Denotes s v i y

section
variable {V : Type} [LinearOrder V] {s s' : Store} {v : Valuation V}

theorem comparison_of_stopsOn {op : BinaryOp} {b : Bool} (h : stopsOn op = some b) :
    comparison (V := V) op = none := by
  cases op <;> simp_all [stopsOn, comparison]

theorem Denotes.det {i : NodeId} {x y : V} (h : Denotes s v i x) (h' : Denotes s v i y) :
    x = y := by
  induction h generalizing y with
  | identifier hn | constant hn | primitive hn =>
    cases h' <;> simp_all
  | not hn _ ih =>
    cases h' with
    | not hn' ha' =>
      rw [hn] at hn'; cases hn'
      rw [ih ha']
    | identifier hn' | constant hn' | primitive hn' | compare hn' | first hn' | second hn' =>
      rw [hn] at hn'; cases hn'
  | compare hn hf _ _ ihl ihr =>
    cases h' with
    | compare hn' hf' hl' hr' =>
      rw [hn] at hn'; cases hn'
      rw [hf] at hf'; cases hf'
      rw [ihl hl', ihr hr']
    | first hn' hb' | second hn' hb' =>
      rw [hn] at hn'; cases hn'
      rw [comparison_of_stopsOn hb'] at hf; cases hf
    | identifier hn' | constant hn' | primitive hn' | not hn' => rw [hn] at hn'; cases hn'
  | first hn hb _ hx ihl =>
    cases h' with
    | first hn' _ hl' _ => rw [hn] at hn'; cases hn'; exact ihl hl'
    | second hn' hb' hl' hx' _ =>
      rw [hn] at hn'; cases hn'
      rw [hb] at hb'; cases hb'
      exact absurd (ihl hl' ▸ hx) hx'
    | compare hn' hf' =>
      rw [hn] at hn'; cases hn'
      rw [comparison_of_stopsOn hb] at hf'; cases hf'
    | identifier hn' | constant hn' | primitive hn' | not hn' => rw [hn] at hn'; cases hn'
  | second hn hb _ hx _ ihl ihr =>
    cases h' with
    | first hn' hb' hl' hx' =>
      rw [hn] at hn'; cases hn'
      rw [hb] at hb'; cases hb'
      exact absurd (ihl hl' ▸ hx') hx
    | second hn' _ _ _ hr' => rw [hn] at hn'; cases hn'; exact ihr hr'
    | compare hn' hf' =>
      rw [hn] at hn'; cases hn'
      rw [comparison_of_stopsOn hb] at hf'; cases hf'
    | identifier hn' | constant hn' | primitive hn' | not hn' => rw [hn] at hn'; cases hn'

theorem Denotes.grows {i : NodeId} {x : V} (h : Denotes s v i x) (hg : Grows s s') :
    Denotes s' v i x := by
  induction h with
  | identifier hn => exact .identifier (hg.node_eq hn nofun)
  | constant hn => exact .constant (hg.node_eq hn nofun)
  | primitive hn => exact .primitive (hg.node_eq hn nofun)
  | not hn _ ih => exact .not (hg.node_eq hn nofun) ih
  | compare hn hf _ _ ihl ihr => exact .compare (hg.node_eq hn nofun) hf ihl ihr
  | first hn hb _ hx ih => exact .first (hg.node_eq hn nofun) hb ih hx
  | second hn hb _ hx _ ihl ihr => exact .second (hg.node_eq hn nofun) hb ihl hx ihr

theorem Denotes.logical {i l r : NodeId} {op : BinaryOp} {b : Bool} {x y : V}
    (hn : s.node i = .binary op l r) (hb : stopsOn op = some b) (hl : Denotes s v l x)
    (hr : Denotes s v r y) : Denotes s v i (if v.isTrue x = b then x else y) := by
  split
  · rename_i hx
    exact .first hn hb hl hx
  · rename_i hx
    exact .second hn hb hl hx hr

end

/-! ## Conditions as tests make them -/

/-- An operand of a comparison: a variable or a constant. -/
def IsOperand (n : Node) : Prop :=
  (∃ x, n = .identifier x) ∨ (∃ k l, n = .constant k l) ∨ ∃ k, n = .primitive k

/-- A condition as a test has it: a comparison, a variable, or `not` of a variable. -/
inductive IsTest (s : Store) (i : NodeId) : Prop
  | compare {op l r} : s.node i = .binary op l r → isComparison op →
      IsOperand (s.node l) → IsOperand (s.node r) → IsTest s i
  | plain {x} : s.node i = .identifier x → IsTest s i
  | not {a x} : s.node i = .unary .not a → s.node a = .identifier x → IsTest s i

section
variable {V : Type} [LinearOrder V] {s s' : Store} {v : Valuation V}

theorem comparison_of_isComparison {op : BinaryOp} (h : isComparison op) :
    ∃ f, comparison (V := V) op = some f := by
  cases op <;> simp_all [comparison, isComparison]

theorem IsOperand.denotes {i : NodeId} (h : IsOperand (s.node i)) : ∃ x, Denotes s v i x := by
  rcases h with ⟨x, hx⟩ | ⟨k, l, hk⟩ | ⟨k, hk⟩
  · exact ⟨_, .identifier hx⟩
  · exact ⟨_, .constant hk⟩
  · exact ⟨_, .primitive hk⟩

theorem IsOperand.ne_absent {n : Node} (h : IsOperand n) : n ≠ .absent := by
  rcases h with ⟨x, rfl⟩ | ⟨k, l, rfl⟩ | ⟨k, rfl⟩ <;> nofun

theorem IsTest.denotes {i : NodeId} (h : IsTest s i) : ∃ x, Denotes s v i x := by
  cases h with
  | compare hn hf hl hr =>
    obtain ⟨f, hf⟩ := comparison_of_isComparison (V := V) hf
    obtain ⟨x, hx⟩ := hl.denotes (v := v)
    obtain ⟨y, hy⟩ := hr.denotes (v := v)
    exact ⟨_, .compare hn hf hx hy⟩
  | plain hn => exact ⟨_, .identifier hn⟩
  | not hn ha => exact ⟨_, .not hn (.identifier ha)⟩

end

end LuaLift.Proofs
