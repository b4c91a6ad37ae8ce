import LuaLift.Proofs.Evaluation
import LuaLift.Proofs.Reading
import LuaLift.Proofs.Spelling

/-! # Grouping operands anew

A text is read with the operands of operators of one priority grouped by the rules of the
language, whatever their grouping was. `Expr.harmless` says that this changes no value:
where an operand that is an operator itself is written without parentheses, the pair of
operators has a law that allows it, and no negative number is the base of a power. -/
namespace LuaLift.Proofs
open Tree Lua

/-- The pairs of operators for which `x o (y op z)` is `(x o y) op z`. -/
def associates : BinaryOp → BinaryOp → Bool
  | .or, .or | .and, .and | .add, .add | .add, .subtract => true
  | .multiply, .multiply | .multiply, .divide => true
  | o, op => isOrder o && isOrder op

/-- The operator that an expression is written beside without parentheses. -/
inductive Place where
  | alone
  | after (op : BinaryOp)
  | before (op : BinaryOp)
  deriving DecidableEq

namespace Place

/-- Whether the operator of the place takes an operand of `op`. -/
def flat : Place → BinaryOp → Bool
  | alone, _ => false
  | after o, op => leftPriority op ≤ rightPriority o
  | before o, op => op == o

/-- Whether it makes no difference that the operator of the place does so. -/
def regroups : Place → BinaryOp → Bool
  | alone, _ => true
  | after o, op => associates o op
  | before o, _ => o == .concat

end Place

def Context.place : Context → Place
  | .none => .alone
  | .after _ op => .after op
  | .before op _ => .before op

namespace Expr

/-- The places of the operands of a binary operator. -/
def leftPlace (p : Place) (op : BinaryOp) (l : Expr) : Place :=
  if l.enclosedIn op then .alone
  else if groupsRight op then .before op
  else if p.flat op then p else .alone

def rightPlace (p : Place) (op : BinaryOp) (r : Expr) : Place :=
  if r.enclosedIn op then .alone
  else if groupsRight op then if p.flat op then p else .alone
  else .after op

mutual

/-- An expression keeps its value when it is written at a place and read. -/
def harmless (p : Place) : Expr → Bool
  | name _ => true
  | number k => p != .before .pow || 0 ≤ k
  | text _ => true
  | unary _ e => harmless .alone e
  | binary op l r => (!p.flat op || p.regroups op) &&
      harmless (leftPlace p op l) l && harmless (rightPlace p op r) r
  | element t k => harmless .alone t && harmless .alone k
  | call f as => harmless .alone f && harmlessAll as

def harmlessAll : List Expr → Bool
  | [] => true
  | e :: es => harmless .alone e && harmlessAll es

end

end Expr

section
open Value
variable {env : Environment} {c : Context} {op : BinaryOp} {e e' : Expr}

theorem Context.flat_place (c : Context) (op : BinaryOp) : c.flat op = c.place.flat op := by
  cases c <;> rfl

theorem eval_fill (h : e.eval env = e'.eval env) : (c.fill e).eval env = (c.fill e').eval env := by
  cases c <;> simp only [Context.fill, Expr.eval, h]

theorem eval_graftIn
    (ih : ∀ c : Context, e.harmless c.place → (e.graft c).eval env = (c.fill e).eval env)
    (enclosed : Bool) (h : e.harmless (if enclosed then .alone else c.place)) :
    (e.graftIn enclosed c).eval env = (c.fill e).eval env := by
  cases enclosed with
  | true => exact eval_fill (ih .none h)
  | false => exact ih c h

theorem combine_associates {o : BinaryOp} (h : associates o op) (x y z : Option Value) :
    combine env o x (combine env op y z) = combine env op (combine env o x y) z := by
  unfold associates at h
  split at h
  · exact combine_or x y z
  · exact combine_and x y z
  · exact combine_add x y z
  · exact combine_add_subtract x y z
  · exact combine_multiply x y z
  · exact combine_multiply_divide x y z
  · rw [Bool.and_eq_true] at h
    exact combine_order x y z h.1 h.2

theorem groupsRight_of_associates {o : BinaryOp} (h : associates o op) : groupsRight op = false := by
  cases hg : groupsRight op with
  | false => rfl
  | true => rcases groupsRight_cases hg with rfl | rfl <;> simp [associates, isOrder] at h

/-- The law of the operators where they are grouped anew. -/
theorem eval_regroup (hflat : c.flat op = true) (hc : c.place.regroups op = true) (l r : Expr) :
    (c.fill (.binary op l r)).eval env =
      if groupsRight op then combine env op (l.eval env) ((c.fill r).eval env)
      else combine env op ((c.fill l).eval env) (r.eval env) := by
  cases c with
  | none => cases hflat
  | before o z =>
    obtain rfl : op = o := eq_of_beq hflat
    obtain rfl : op = .concat := eq_of_beq hc
    exact (combine_concat _ _ _).symm
  | after x o =>
    rw [groupsRight_of_associates hc]
    exact combine_associates hc _ _ _

section
variable {l r : Expr}
  (ihl : ∀ c : Context, l.harmless c.place → (l.graft c).eval env = (c.fill l).eval env)
  (ihr : ∀ c : Context, r.harmless c.place → (r.graft c).eval env = (c.fill r).eval env)
include ihl ihr

theorem eval_operands
    (hl : l.harmless (if l.enclosedIn op then .alone
      else if groupsRight op then .before op else c.place))
    (hr : r.harmless (if r.enclosedIn op then .alone
      else if groupsRight op then c.place else .after op)) :
    (if groupsRight op then
        l.graftIn (l.enclosedIn op) (.before op (r.graftIn (r.enclosedIn op) c))
      else r.graftIn (r.enclosedIn op) (.after (l.graftIn (l.enclosedIn op) c) op)).eval env =
      if groupsRight op then combine env op (l.eval env) ((c.fill r).eval env)
      else combine env op ((c.fill l).eval env) (r.eval env) := by
  cases hg : groupsRight op with
  | true =>
    simp only [hg, if_true] at hl hr ⊢
    rw [eval_graftIn ihl _ hl, Context.fill, Expr.eval, eval_graftIn ihr _ hr]
  | false =>
    simp only [hg, Bool.false_eq_true, if_false] at hl hr ⊢
    rw [eval_graftIn ihr _ hr, Context.fill, Expr.eval, eval_graftIn ihl _ hl]

theorem eval_graft_binary (h : (Expr.binary op l r).harmless c.place) :
    ((Expr.binary op l r).graft c).eval env = (c.fill (.binary op l r)).eval env := by
  simp only [Expr.harmless, Expr.leftPlace, Expr.rightPlace, ← Context.flat_place, Bool.and_eq_true,
    Bool.or_eq_true, Bool.not_eq_true'] at h
  obtain ⟨⟨hlaw, hl⟩, hr⟩ := h
  rw [Expr.graft_binary]
  cases hflat : c.flat op with
  | true =>
    simp only [hflat, if_true] at hl hr ⊢
    have hc : c.place.regroups op := by simpa [hflat] using hlaw
    rw [eval_regroup hflat hc]
    exact eval_operands ihl ihr hl hr
  | false =>
    simp only [hflat, Bool.false_eq_true, if_false] at hl hr ⊢
    apply eval_fill
    rw [eval_operands ihl ihr hl hr, Expr.eval]
    exact ite_self _

end

/-- A minus sign before a number is part of the number, except under a power. -/
theorem eval_negative {k : Int} (h : c.place ≠ .before .pow) :
    (c.negative (-k)).eval env = (c.fill (.number k)).eval env := by
  have hsign : (Expr.unary .minus (.number (-k))).eval env = (Expr.number k).eval env := by
    simp [Expr.eval, unary?, toNumber?]
  have hfill : c.negative (-k) = c.fill (.unary .minus (.number (-k))) := by
    unfold Context.negative
    split
    · exact absurd rfl h
    · rfl
  rw [hfill]
  exact eval_fill hsign

def Expr.isCall : Expr → Bool
  | .call _ _ => true
  | _ => false

theorem Context.isCall_fill (h : c.place = .alone → e.isCall = false) : (c.fill e).isCall = false := by
  cases c with
  | none => exact h rfl
  | after _ _ | before _ _ => rfl

theorem Context.isCall_negative (k : Int) : (c.negative k).isCall = false := by
  unfold Context.negative
  split
  · rfl
  · cases c <;> rfl

theorem isCall_graftIn
    (ih : ∀ c : Context, (c.place = .alone → e.isCall = false) → (e.graft c).isCall = false)
    (enclosed : Bool) (h : c.place ≠ .alone) : (e.graftIn enclosed c).isCall = false := by
  cases enclosed with
  | true => exact Context.isCall_fill fun hc => absurd hc h
  | false => exact ih c fun hc => absurd hc h

theorem isCall_graft : ∀ (e : Expr) (c : Context), (c.place = .alone → e.isCall = false) →
    (e.graft c).isCall = false
  | .name _, c, h | .text _, c, h | .unary _ _, c, h | .element _ _, c, h | .call _ _, c, h => by
    exact Context.isCall_fill h
  | .number k, c, h => by
    rw [Expr.graft]
    split
    · exact Context.isCall_negative _
    · exact Context.isCall_fill h
  | .binary op l r, c, h => by
    rw [Expr.graft_binary]
    refine Context.isCall_fill fun _ => ?_
    split
    · exact isCall_graftIn (isCall_graft l) _ nofun
    · exact isCall_graftIn (isCall_graft r) _ nofun

theorem evalAll_cons {es : List Expr} (h : es = [] → e.isCall = false) :
    Expr.evalAll env (e :: es) = (e.eval env).bind fun a => (Expr.evalAll env es).map (a :: ·) := by
  rw [Expr.evalAll]
  rintro f as rfl rfl
  cases h rfl

mutual

/-- A harmless expression has the same value as what its text is read as. -/
theorem eval_graft : ∀ (e : Expr) (c : Context), e.harmless c.place →
    (e.graft c).eval env = (c.fill e).eval env
  | .name x, c, _ => by rw [Expr.graft]
  | .number k, c, h => by
    rw [Expr.graft]
    split
    · rename_i hk
      refine eval_negative fun hp => ?_
      rw [Expr.harmless, hp] at h
      simp at h
      omega
    · rfl
  | .text s, c, _ => by rw [Expr.graft]
  | .unary op e, c, h => by
    rw [Expr.harmless] at h
    rw [Expr.graft]
    apply eval_fill
    rw [Expr.eval, eval_graft e .none h]
    rfl
  | .binary op l r, c, h => eval_graft_binary (eval_graft l) (eval_graft r) h
  | .element t k, c, h => by
    rw [Expr.harmless, Bool.and_eq_true] at h
    rw [Expr.graft]
    apply eval_fill
    rw [Expr.eval, eval_graft t .none h.1, eval_graft k .none h.2]
    rfl
  | .call f as, c, h => by
    rw [Expr.harmless, Bool.and_eq_true] at h
    rw [Expr.graft]
    apply eval_fill
    rw [Expr.eval, eval_graft f .none h.1, evalAll_graftList as h.2]
    rfl

theorem evalAll_graftList : ∀ as : List Expr, Expr.harmlessAll as →
    Expr.evalAll env (Expr.graftList as) = Expr.evalAll env as
  | [], _ => rfl
  | e :: es, h => by
    rw [Expr.harmlessAll, Bool.and_eq_true] at h
    by_cases hlast : es = [] → e.isCall = false
    · have hgraft : Expr.graftList es = [] → (e.graft .none).isCall = false := fun hes =>
        isCall_graft e .none fun _ => hlast (by cases es <;> simp_all [Expr.graftList])
      rw [Expr.graftList, evalAll_cons hgraft, evalAll_cons hlast, eval_graft e .none h.1,
        evalAll_graftList es h.2]
      rfl
    · -- all results of the last call are taken
      obtain ⟨rfl, hcall⟩ : es = [] ∧ e.isCall = true := by simpa using hlast
      cases e with
      | call f as =>
        rw [Expr.harmless, Bool.and_eq_true] at h
        rw [Expr.graftList, Expr.graft, Expr.graftList, Context.fill, Expr.evalAll, Expr.evalAll,
          eval_graft f .none h.1.1, evalAll_graftList as h.1.2]
        rfl
      | name _ | number _ | text _ | unary _ _ | binary _ _ _ | element _ _ => cases hcall

end

/-- The text that is written for a returned expression is read as an expression with the same
value in every environment, if the expression can be read at all and is harmless. -/
theorem returned_text_keeps_value {s : Store} {root i : NodeId} {ids : List NodeId}
    (hr : IsReturn s root i) (he : Spells s i e ids) (hd : ids.Nodup) (hp : e.printable)
    (hh : e.harmless .alone) :
    ∃ t e', Returns (Lua.text root) ⟨s, ()⟩ ("return " ++ t ++ "\n", none) ⟨s, ()⟩ ∧
      Expr.read t = some e' ∧ ∀ env, e'.eval env = e.eval env := by
  refine ⟨e.spelling, e.regroup, returns_text hr he hd, Expr.read_spelling hp, fun env => ?_⟩
  exact eval_graft e .none hh

end

/-! ## Two operators -/

/-- A function that returns `a op (b - c)`. -/
def twoOperators (op : BinaryOp) : Store where
  cells := ([.absent, .identifier { kind := .named, name := some "a" },
    .identifier { kind := .named, name := some "b" }, .identifier { kind := .named, name := some "c" },
    .binary .subtract ⟨2⟩ ⟨3⟩, .binary op ⟨1⟩ ⟨4⟩, .list .expressions [⟨5⟩], .ret ⟨6⟩,
    .list .statements [⟨7⟩], .function .absent ⟨8⟩ {}].map ({ node := · })).toArray

theorem twoOperators_isReturn (op : BinaryOp) : IsReturn (twoOperators op) ⟨9⟩ ⟨5⟩ where
  missing := rfl
  node := ⟨_, _, _, _, _, rfl, rfl, rfl, rfl⟩

theorem twoOperators_spells {op : BinaryOp} (h : (binarySign op).isSome) : Spells (twoOperators op) ⟨5⟩
    (.binary op (.name "a") (.binary .subtract (.name "b") (.name "c"))) [⟨5⟩, ⟨1⟩, ⟨4⟩, ⟨2⟩, ⟨3⟩] := by
  have name : ∀ i x, (twoOperators op).node i = .identifier { kind := .named, name := some x } →
      Spells (twoOperators op) i (.name x) [i] := fun i x hi => .name hi
  exact .binary rfl h (name ⟨1⟩ "a" rfl) (.binary rfl rfl (name ⟨2⟩ "b" rfl) (name ⟨3⟩ "c" rfl))

theorem returned_sum_keeps_value :
    IsReturn (twoOperators .add) ⟨9⟩ ⟨5⟩ ∧
    ∃ t e', Returns (Lua.text ⟨9⟩) ⟨twoOperators .add, ()⟩ ("return " ++ t ++ "\n", none)
        ⟨twoOperators .add, ()⟩ ∧
      Expr.read t = some e' ∧ ∀ env, e'.eval env =
        (Expr.binary .add (.name "a") (.binary .subtract (.name "b") (.name "c"))).eval env :=
  ⟨twoOperators_isReturn .add, returned_text_keeps_value (twoOperators_isReturn .add)
    (twoOperators_spells rfl) (by decide) (by decide) (by decide)⟩

/-- Three variables and nothing else. -/
def threeValues (a b c : Value) : Environment where
  valueOf x := if x = "a" then a else if x = "b" then b else c
  numeral _ := ""
  numeric _ := none
  power p q := if q.den = 1 ∧ 0 ≤ q.num then some (p ^ q.num.toNat) else none
  size _ := none
  index _ _ := none
  apply _ _ := none

/-- A difference that is subtracted is written without parentheses. -/
theorem returned_difference_changes_value :
    Spells (twoOperators .subtract) ⟨5⟩
      (.binary .subtract (.name "a") (.binary .subtract (.name "b") (.name "c"))) [⟨5⟩, ⟨1⟩, ⟨4⟩, ⟨2⟩, ⟨3⟩] ∧
    Returns (Lua.text ⟨9⟩) ⟨twoOperators .subtract, ()⟩ ("return " ++ "a - b - c" ++ "\n", none)
      ⟨twoOperators .subtract, ()⟩ ∧
    ∃ e', Expr.read "a - b - c" = some e' ∧ ∃ env, e'.eval env ≠
      (Expr.binary .subtract (.name "a") (.binary .subtract (.name "b") (.name "c"))).eval env := by
  have hspells := @twoOperators_spells .subtract rfl
  have htext := returns_text (twoOperators_isReturn .subtract) hspells (by decide)
  have hread := Expr.read_spelling
    (e := .binary .subtract (.name "a") (.binary .subtract (.name "b") (.name "c"))) (by decide)
  refine ⟨hspells, htext, _, hread, threeValues (.number 3) (.number 2) (.number 1), by decide +kernel⟩

/-- Of two operators beside each other, the condition leaves out exactly the pairs whose value depends
on how they are grouped. -/
theorem harmless_iff_of_pair : ∀ o ∈ signs, ∀ op ∈ signs,
    ∀ e ∈ [Expr.binary o (.name "a") (.binary op (.name "b") (.name "c")),
      Expr.binary o (.binary op (.name "a") (.name "b")) (.name "c")],
    e.harmless .alone ↔ ∀ env, e.regroup.eval env = e.eval env := by
  have hpairs : ∀ o ∈ signs, ∀ op ∈ signs,
      ∀ e ∈ [Expr.binary o (.name "a") (.binary op (.name "b") (.name "c")),
        Expr.binary o (.binary op (.name "a") (.name "b")) (.name "c")],
      e.harmless .alone = false → ∃ env ∈ [threeValues (.number 2) (.number 3) (.number 2),
        threeValues (.number 3) (.number 5) (.number 3),
        threeValues (.boolean false) (.number 1) (.number 1),
        threeValues (.boolean true) (.number 1) (.number 1)], e.regroup.eval env ≠ e.eval env := by
    decide +kernel
  intro o ho op hop e he
  refine ⟨fun h env => eval_graft e .none h, fun h => ?_⟩
  by_contra hn
  obtain ⟨env, -, henv⟩ := hpairs o ho op hop e he (by simpa using hn)
  exact henv (h env)

end LuaLift.Proofs
