import LuaLift.Proofs.Expression

/-! # The values of expressions

`Expr.eval` gives the value of an expression in an environment, or none if its evaluation
fails. Arithmetic is exact; numbers and texts stand for each other where one is wanted and
the other given. An environment says what variables are and how tables and functions
behave. The laws at the end are those under which operands may be grouped anew. -/
namespace LuaLift.Proofs
open Tree

inductive Value where
  | nil
  | boolean (b : Bool)
  | number (q : Rat)
  | text (s : String)
  /-- a table or a function -/
  | object (n : Nat)
  deriving DecidableEq

structure Environment where
  valueOf : String → Value
  /-- the text of a number -/
  numeral : Rat → String
  /-- the number that a text stands for -/
  numeric : String → Option Rat
  power : Rat → Rat → Option Rat
  size : Value → Option Value
  index : Value → Value → Option Value
  /-- all results of a call -/
  apply : Value → List Value → Option (List Value)

namespace Value

def isTrue : Value → Bool
  | nil | boolean false => false
  | _ => true

def toNumber? (env : Environment) : Value → Option Rat
  | number q => some q
  | text s => env.numeric s
  | _ => none

def toText? (env : Environment) : Value → Option String
  | number q => some (env.numeral q)
  | text s => some s
  | _ => none

/-- The order of two numbers or two texts. -/
def less? : Value → Value → Option Bool
  | number p, number q => some (p < q)
  | text s, text t => some (s < t)
  | _, _ => none

def remainder (p q : Rat) : Rat := p - q * (p / q).floor

def arithmetic? (env : Environment) : BinaryOp → Rat → Rat → Option Rat
  | .add, p, q => some (p + q)
  | .subtract, p, q => some (p - q)
  | .multiply, p, q => some (p * q)
  | .divide, p, q => if q = 0 then none else some (p / q)
  | .mod, p, q => if q = 0 then none else some (remainder p q)
  | .pow, p, q => env.power p q
  | _, _, _ => none

/-- An operator applied to the numbers that its operands stand for. -/
def compute? (env : Environment) (op : BinaryOp) (a b : Value) : Option Value :=
  (toNumber? env a).bind fun p => (toNumber? env b).bind fun q => (arithmetic? env op p q).map number

/-- An operator applied to the values of both operands. -/
def binary? (env : Environment) (op : BinaryOp) (a b : Value) : Option Value :=
  match op with
  | .less => (less? a b).map boolean
  | .greater => (less? b a).map boolean
  | .lessEqual => (less? b a).map fun c => boolean !c
  | .greaterEqual => (less? a b).map fun c => boolean !c
  | .equal => some (boolean (a = b))
  | .notEqual => some (boolean (a ≠ b))
  | .concat => (toText? env a).bind fun s => (toText? env b).map fun t => text (s ++ t)
  | op => compute? env op a b

def unary? (env : Environment) (op : UnaryOp) (a : Value) : Option Value :=
  match op with
  | .not => some (boolean !a.isTrue)
  | .length =>
    match a with
    | text s => some (number s.length)
    | a => env.size a
  | .minus => (toNumber? env a).map fun p => number (-p)
  | _ => none

/-- The operators that may leave their second operand alone. -/
def stops : BinaryOp → Bool
  | .or | .and => true
  | _ => false

/-- An operator applied to its operands. `and` and `or` evaluate the second one only if the
first does not decide. -/
def combine (env : Environment) (op : BinaryOp) (x y : Option Value) : Option Value :=
  match op with
  | .or => x.bind fun a => if a.isTrue then some a else y
  | .and => x.bind fun a => if a.isTrue then y else some a
  | op => x.bind fun a => y.bind (binary? env op a)

end Value

namespace Expr

mutual

def eval (env : Environment) : Expr → Option Value
  | name x => some (env.valueOf x)
  | number k => some (.number k)
  | text s => some (.text s)
  | unary op e => (eval env e).bind (Value.unary? env op)
  | binary op l r => Value.combine env op (eval env l) (eval env r)
  | element t k => (eval env t).bind fun a => (eval env k).bind (env.index a)
  | call f as => (eval env f).bind fun a => (evalAll env as).bind fun bs =>
      (env.apply a bs).map fun cs => cs.headD .nil

/-- The values of arguments. A call that is the last argument gives all its results. -/
def evalAll (env : Environment) : List Expr → Option (List Value)
  | [] => some []
  | [call f as] => (eval env f).bind fun a => (evalAll env as).bind (env.apply a)
  | e :: es => (eval env e).bind fun a => (evalAll env es).map (a :: ·)

end

end Expr

/-! ## Laws -/

section
open Value
variable {env : Environment} (x y z : Option Value) {o op : BinaryOp}

theorem combine_or : combine env .or x (combine env .or y z) =
    combine env .or (combine env .or x y) z := by
  cases x with
  | none => rfl
  | some a => cases h : a.isTrue <;> simp [combine, h]

theorem combine_and : combine env .and x (combine env .and y z) =
    combine env .and (combine env .and x y) z := by
  cases x with
  | none => rfl
  | some a => cases h : a.isTrue <;> simp [combine, h]

theorem combine_of_not_stops (h : stops op = false) :
    combine env op x y = x.bind fun a => y.bind (binary? env op a) := by
  cases op <;> first | rfl | cases h

theorem combine_binary (ho : stops o = false) (hop : stops op = false)
    (h : ∀ a b c, (binary? env op b c).bind (binary? env o a) =
      (binary? env o a b).bind (binary? env op · c)) :
    combine env o x (combine env op y z) = combine env op (combine env o x y) z := by
  simp only [combine_of_not_stops _ _ ho, combine_of_not_stops _ _ hop]
  cases x with
  | none => rfl
  | some a =>
    cases y with
    | none => rfl
    | some b =>
      cases z with
      | none => simp
      | some c => exact h a b c

theorem combine_concat : combine env .concat x (combine env .concat y z) =
    combine env .concat (combine env .concat x y) z := by
  refine combine_binary x y z rfl rfl fun a b c => ?_
  have hconcat : ∀ a b, binary? env .concat a b =
      (toText? env a).bind fun s => (toText? env b).map fun t => text (s ++ t) := fun _ _ => rfl
  have htext : ∀ s, toText? env (text s) = some s := fun _ => rfl
  cases ha : toText? env a <;> cases hb : toText? env b <;> cases hc : toText? env c <;>
    simp [hconcat, htext, ha, hb, hc, String.append_assoc]

theorem compute_regroup
    (h : ∀ p q r, (arithmetic? env op q r).bind (arithmetic? env o p) =
      (arithmetic? env o p q).bind (arithmetic? env op · r)) (a b c : Value) :
    (compute? env op b c).bind (compute? env o a) = (compute? env o a b).bind (compute? env op · c) := by
  have hcompute : ∀ {op a b}, compute? env op a b = (toNumber? env a).bind fun p =>
      (toNumber? env b).bind fun q => (arithmetic? env op p q).map number := rfl
  have hnumber : ∀ q, toNumber? env (number q) = some q := fun _ => rfl
  have hmap : ∀ (o : Option Rat) (f : Value → Option Value),
      (o.map number).bind f = o.bind fun q => f (number q) := by
    intro o f
    cases o <;> rfl
  cases ha : toNumber? env a with
  | none => simp [hcompute, ha]
  | some p =>
    cases hb : toNumber? env b with
    | none => simp [hcompute, ha, hb]
    | some q =>
      cases hc : toNumber? env c with
      | none => simp [hcompute, ha, hb, hc]
      | some r =>
        have := congrArg (Option.map number) (h p q r)
        simpa [hcompute, hnumber, hmap, ha, hb, hc, Option.map_bind, Function.comp_def] using this

theorem combine_add : combine env .add x (combine env .add y z) =
    combine env .add (combine env .add x y) z :=
  combine_binary x y z rfl rfl <| compute_regroup fun p q r => by simp [arithmetic?, Rat.add_assoc]

theorem combine_add_subtract : combine env .add x (combine env .subtract y z) =
    combine env .subtract (combine env .add x y) z :=
  combine_binary x y z rfl rfl <| compute_regroup fun p q r => by
    simp [arithmetic?, Rat.sub_eq_add_neg, Rat.add_assoc]

theorem combine_multiply : combine env .multiply x (combine env .multiply y z) =
    combine env .multiply (combine env .multiply x y) z :=
  combine_binary x y z rfl rfl <| compute_regroup fun p q r => by simp [arithmetic?, Rat.mul_assoc]

theorem combine_multiply_divide : combine env .multiply x (combine env .divide y z) =
    combine env .divide (combine env .multiply x y) z :=
  combine_binary x y z rfl rfl <| compute_regroup fun p q r => by
    by_cases hr : r = 0 <;> simp [arithmetic?, hr, Rat.div_def, Rat.mul_assoc]

/-- The comparisons by order. -/
def isOrder : BinaryOp → Bool
  | .less | .greater | .lessEqual | .greaterEqual => true
  | _ => false

theorem order_boolean (h : isOrder op) (a : Value) (b : Bool) :
    binary? env op a (.boolean b) = none ∧ binary? env op (.boolean b) a = none := by
  have hless : less? a (.boolean b) = none ∧ less? (.boolean b) a = none := by
    cases a <;> exact ⟨rfl, rfl⟩
  cases op <;> simp_all [isOrder, binary?]

theorem eq_boolean_of_order (h : isOrder op) {a b c : Value}
    (hc : binary? env op a b = some c) : ∃ t, c = .boolean t := by
  cases op <;> simp_all [isOrder, binary?] <;> grind

theorem combine_order (ho : isOrder o) (hop : isOrder op) :
    combine env o x (combine env op y z) = combine env op (combine env o x y) z := by
  have hstops : ∀ {o}, isOrder o → stops o = false := fun {o} h => by
    cases o <;> simp_all [isOrder, stops]
  refine combine_binary x y z (hstops ho) (hstops hop) fun a b c => ?_
  have hleft : (binary? env op b c).bind (binary? env o a) = none := by
    cases h : binary? env op b c with
    | none => rfl
    | some d =>
      obtain ⟨t, rfl⟩ := eq_boolean_of_order hop h
      exact (order_boolean ho a t).1
  have hright : (binary? env o a b).bind (binary? env op · c) = none := by
    cases h : binary? env o a b with
    | none => rfl
    | some d =>
      obtain ⟨t, rfl⟩ := eq_boolean_of_order ho h
      exact (order_boolean hop c t).2
  rw [hleft, hright]

end

end LuaLift.Proofs
