import LuaLift.Proofs.Lexing

/-! # Reading expressions

`read` reads the text of an expression with the priorities of the language: `..` and `^`
group to the right, the other binary operators to the left, and unary operators bind
tighter than `*` and looser than `^`. An operator that waits for its right operand gets it
as soon as the next operator does not bind tighter. An index or a call applies to a name,
to an expression in parentheses, or to another index or call. -/
namespace LuaLift.Proofs
open Tree Lua

/-- How tightly an operator holds its left operand. -/
def leftPriority : BinaryOp → Nat
  | .or => 1
  | .and => 2
  | .less | .greater | .lessEqual | .greaterEqual | .notEqual | .equal => 3
  | .concat => 5
  | .add | .subtract => 6
  | .multiply | .divide | .mod => 7
  | .pow => 10
  | .other _ => 0

/-- How tightly an operator holds its right operand. -/
def rightPriority : BinaryOp → Nat
  | .concat => 4
  | .pow => 9
  | op => leftPriority op

def unaryPriority : Nat := 8

/-- What waits for an expression to end. -/
inductive Pending where
  | unary (op : UnaryOp)
  | binary (op : BinaryOp) (left : Expr)
  | group
  | key (table : Expr)
  | arguments (function : Expr) (before : List Expr)

/-- The state between two tokens. -/
inductive Reader where
  /-- an operand follows -/
  | wants (st : List Pending)
  /-- after an operand; `closed` if an index or a call may follow -/
  | has (st : List Pending) (e : Expr) (closed : Bool)
  /-- the name of a field follows -/
  | field (st : List Pending) (e : Expr)

namespace Reader

/-- Gives an expression to all operators that hold it at least as tightly as `q`. -/
def reduce (q : Nat) : List Pending → Expr → List Pending × Expr
  | .unary op :: st, e =>
    if q ≤ unaryPriority then reduce q st (.unary op e) else (.unary op :: st, e)
  | .binary op l :: st, e =>
    if q ≤ rightPriority op then reduce q st (.binary op l e) else (.binary op l :: st, e)
  | st, e => (st, e)

def step : Reader → Token → Option Reader
  | .wants st, .name x => some (.has st (.name x) true)
  | .wants st, .number n => some (.has st (.number n) false)
  | .wants st, .text s => some (.has st (.text s) false)
  | .wants st, .not => some (.wants (.unary .not :: st))
  | .wants st, .length => some (.wants (.unary .length :: st))
  | .wants st, .operator .subtract => some (.wants (.unary .minus :: st))
  | .wants st, .openParen => some (.wants (.group :: st))
  | .wants (.arguments f [] :: st), .closeParen => some (.has st (.call f []) true)
  | .has st e _, .operator op =>
    let (st, e) := reduce (leftPriority op) st e
    some (.wants (.binary op e :: st))
  | .has st e true, .dot => some (.field st e)
  | .has st e true, .openKey => some (.wants (.key e :: st))
  | .has st e true, .openParen => some (.wants (.arguments e [] :: st))
  | .has st e _, .closeParen =>
    match reduce 0 st e with
    | (.group :: st, e) => some (.has st e true)
    | (.arguments f es :: st, e) => some (.has st (.call f (es ++ [e])) true)
    | _ => none
  | .has st e _, .closeKey =>
    match reduce 0 st e with
    | (.key t :: st, e) => some (.has st (.element t e) true)
    | _ => none
  | .has st e _, .comma =>
    match reduce 0 st e with
    | (.arguments f es :: st, e) => some (.wants (.arguments f (es ++ [e]) :: st))
    | _ => none
  | .field st e, .name x => some (.has st (.element e (.text x)) true)
  | _, _ => none

def run : Reader → List Token → Option Reader
  | r, [] => some r
  | r, t :: ts => (step r t).bind (run · ts)

end Reader

def Expr.parse (ts : List Token) : Option Expr :=
  match Reader.run (.wants []) ts with
  | some (.has st e _) =>
    match Reader.reduce 0 st e with
    | ([], e) => some e
    | _ => none
  | _ => none

/-- The expression that a text is read as. -/
def Expr.read (s : String) : Option Expr := (lex s.toList).bind Expr.parse

/-! ## What a text is read as -/

/-- Operands that an expression is written beside without parentheses. -/
inductive Context where
  | none
  | after (left : Expr) (op : BinaryOp)
  | before (op : BinaryOp) (right : Expr)

namespace Context

def fill : Context → Expr → Expr
  | none, e => e
  | after l op, e => .binary op l e
  | before op r, e => .binary op e r

/-- A minus sign and a number; a power takes the number alone. -/
def negative (k : Int) : Context → Expr
  | before .pow r => .unary .minus (.binary .pow (.number k) r)
  | c => c.fill (.unary .minus (.number k))

/-- Whether an operator takes the operand that stands beside it. -/
def flat : Context → BinaryOp → Bool
  | none, _ => false
  | after _ o, op => leftPriority op ≤ rightPriority o
  | before o _, op => op == o

end Context

def groupsRight (op : BinaryOp) : Bool := rightPriority op < leftPriority op

namespace Expr

mutual

/-- What the text of an expression in a context is read as. Operators of one priority are
grouped anew, and a negative number is an operator applied to a number. -/
def graft (c : Context) : Expr → Expr
  | name x => c.fill (.name x)
  | number k => if k < 0 then c.negative (-k) else c.fill (.number k)
  | text s => c.fill (.text s)
  | unary op e => c.fill (.unary op (graft .none e))
  | binary op l r =>
    let inner := if c.flat op then c else .none
    let e :=
      if groupsRight op then
        let right := if enclosedIn op r then inner.fill (graft .none r) else graft inner r
        if enclosedIn op l then .binary op (graft .none l) right else graft (.before op right) l
      else
        let left := if enclosedIn op l then inner.fill (graft .none l) else graft inner l
        if enclosedIn op r then .binary op left (graft .none r) else graft (.after left op) r
    if c.flat op then e else c.fill e
  | element t k => c.fill (.element (graft .none t) (graft .none k))
  | call f as => c.fill (.call (graft .none f) (graftList as))

def graftList : List Expr → List Expr
  | [] => []
  | e :: es => graft .none e :: graftList es

end

/-- What the text of an expression is read as. -/
def regroup (e : Expr) : Expr := e.graft .none

end Expr

/-- What the text of an operand in parentheses or without them is read as. -/
def Expr.graftIn (enclosed : Bool) (c : Context) (e : Expr) : Expr :=
  if enclosed then c.fill (e.graft .none) else e.graft c

theorem Expr.graft_binary (c : Context) (op : BinaryOp) (l r : Expr) :
    (Expr.binary op l r).graft c =
      (if c.flat op then .none else c).fill (if groupsRight op then
        l.graftIn (l.enclosedIn op) (.before op
          (r.graftIn (r.enclosedIn op) (if c.flat op then c else .none)))
      else r.graftIn (r.enclosedIn op) (.after
        (l.graftIn (l.enclosedIn op) (if c.flat op then c else .none)) op)) := by
  rw [Expr.graft]
  cases c.flat op <;> rfl

/-! ## Readers -/

section
open Reader
variable {st st' : List Pending} {e : Expr} {ts ts' : List Token} {q : Nat}

theorem run_append (r : Reader) : run r (ts ++ ts') = (run r ts).bind (run · ts') := by
  induction ts generalizing r with
  | nil => rfl
  | cons t ts ih =>
    rw [List.cons_append, run, run, Option.bind_assoc]
    congr 1
    funext r'
    exact ih r'

/-- How tightly the operator that waits last holds its operand. -/
def grip : List Pending → Nat
  | .unary _ :: _ => unaryPriority
  | .binary op _ :: _ => rightPriority op
  | _ => 0

theorem reduce_of_grip (h : grip st < q) : reduce q st e = (st, e) := by
  unfold reduce
  split
  · exact if_neg (Nat.not_le.mpr h)
  · exact if_neg (Nat.not_le.mpr h)
  · rfl

variable {e' l r x : Expr} {es : List Expr}

theorem reduce_binary {op : BinaryOp} (h : q ≤ rightPriority op) :
    reduce q (.binary op l :: st) e = reduce q st (.binary op l e) := by
  rw [reduce, if_pos h]

theorem reduce_unary {op : UnaryOp} (h : q ≤ unaryPriority) :
    reduce q (.unary op :: st) e = reduce q st (.unary op e) := by
  rw [reduce, if_pos h]

/-- Tokens are read after `st` so that, up to priority `q`, it is as if `e` were read
after `st'`. -/
def Reads (st : List Pending) (ts : List Token) (q : Nat) (st' : List Pending) (e : Expr) : Prop :=
  ∃ pending operand closed, run (.wants st) ts = some (.has pending operand closed) ∧
    ∀ p ≤ q, reduce p pending operand = reduce p st' e

theorem Reads.operator {op : BinaryOp} (h : Reads st ts q st' e) (hq : leftPriority op ≤ q)
    (hg : grip st' < leftPriority op) :
    run (.wants st) (ts ++ [.operator op]) = some (.wants (.binary op e :: st')) := by
  obtain ⟨pending, operand, closed, hrun, hred⟩ := h
  rw [run_append, hrun]
  simp [run, step, hred _ hq, reduce_of_grip hg]

/-! ## Operands without parentheses -/

/-- The least priority of an operator of an expression that is not in parentheses. -/
def Expr.level : Expr → Nat
  | .binary op _ _ => leftPriority op
  | _ => 11

/-- How tightly the operators of an expression hold what stands at its end. -/
def Expr.edge : Expr → Nat
  | .binary op _ _ => min (rightPriority op) unaryPriority
  | .unary _ _ => unaryPriority
  | .number k => if k < 0 then unaryPriority else 11
  | _ => 11

/-- The operators at the top of an expression have a text. -/
def Expr.known : Expr → Bool
  | .binary op _ _ => (binarySign op).isSome
  | .unary op _ => isUnarySign op
  | _ => true

variable {op : BinaryOp}

theorem priority_of_not_groupsRight (h : groupsRight op = false) :
    leftPriority op = rightPriority op := by
  cases op <;> simp_all [groupsRight, leftPriority, rightPriority]

theorem groupsRight_cases (h : groupsRight op = true) : op = .concat ∨ op = .pow := by
  cases op <;> simp_all [groupsRight, leftPriority, rightPriority]

/-- The binary operators that have a text. -/
def signs : List BinaryOp :=
  [.or, .and, .less, .greater, .lessEqual, .greaterEqual, .notEqual, .equal, .concat, .add,
   .subtract, .multiply, .divide, .mod, .pow]

theorem mem_signs (h : (binarySign op).isSome) : op ∈ signs := by
  cases op <;> cases h <;> decide

/-- What the codes of the operators say about an operand without parentheses: it does not
bind less tightly, also at its end, and on the left of an operator that does not group it
anew it ends before the operator. -/
theorem priority_of_codes : ∀ op ∈ signs, ∀ op' ∈ signs, needsParentheses op.code op'.code = false →
    leftPriority op ≤ leftPriority op' ∧
    min (rightPriority op) unaryPriority ≤ min (rightPriority op') unaryPriority ∧
    (groupsRight op = false ∨ op' ≠ op → leftPriority op ≤ min (rightPriority op') unaryPriority) := by
  decide

theorem priority_of_unaryCodes : ∀ op ∈ signs, ∀ op' ∈ [UnaryOp.not, .length, .minus],
    needsParentheses op.code op'.code = false → leftPriority op ≤ unaryPriority := by
  decide

theorem mem_unarySigns {op : UnaryOp} (h : isUnarySign op) : op ∈ [UnaryOp.not, .length, .minus] := by
  cases op <;> cases h <;> decide

theorem leftPriority_le (op : BinaryOp) : leftPriority op ≤ 10 := by
  cases op <;> simp [leftPriority]

section
variable (hop : (binarySign op).isSome) (he : e.known) (h : e.enclosedIn op = false)
include hop he h

theorem level_of_not_enclosed : leftPriority op ≤ e.level := by
  have hle := leftPriority_le op
  cases e with
  | binary op' l r => exact (priority_of_codes op (mem_signs hop) op' (mem_signs he) h).1
  | name _ | number _ | text _ | unary _ _ | element _ _ | call _ _ => exact Nat.le_succ_of_le hle

theorem edge_of_not_enclosed : min (rightPriority op) unaryPriority ≤ e.edge := by
  cases e with
  | binary op' l r => exact (priority_of_codes op (mem_signs hop) op' (mem_signs he) h).2.1
  | unary _ _ => exact Nat.min_le_right _ _
  | number k =>
    simp only [Expr.edge]
    split
    · exact Nat.min_le_right _ _
    · exact Nat.le_trans (Nat.min_le_right _ 8) (Nat.le_add_right 8 3)
  | name _ | text _ | element _ _ | call _ _ =>
    exact Nat.le_trans (Nat.min_le_right _ 8) (Nat.le_add_right 8 3)

/-- An operator ends its left operand, unless it groups to the right and so does the
operand, or the operand of a power is a negative number. -/
theorem edge_of_left : leftPriority op ≤ e.edge ∨ (groupsRight op = true ∧ ∃ l r, e = .binary op l r) ∨
      (op = .pow ∧ ∃ k < 0, e = .number k) := by
  cases e with
  | binary op' l r =>
    have hcodes := (priority_of_codes op (mem_signs hop) op' (mem_signs he) h).2.2
    by_cases hsame : op' = op
    · subst hsame
      cases hg : groupsRight op' with
      | false => exact .inl (hcodes (.inl hg))
      | true => exact .inr (.inl ⟨rfl, l, r, rfl⟩)
    · exact .inl (hcodes (.inr hsame))
  | unary op' a =>
    exact .inl (priority_of_unaryCodes op (mem_signs hop) op' (mem_unarySigns he) h)
  | number k =>
    simp only [Expr.edge]
    split
    · rename_i hk
      by_cases hpow : op = .pow
      · exact .inr (.inr ⟨hpow, k, hk, rfl⟩)
      · left; revert hpow; cases op <;> simp [leftPriority, unaryPriority]
    · exact .inl (Nat.le_succ_of_le (leftPriority_le op))
  | name _ | text _ | element _ _ | call _ _ => exact .inl (Nat.le_succ_of_le (leftPriority_le op))

end

theorem leftPriority_pos : ∀ op ∈ signs, 0 < leftPriority op := by decide

theorem level_pos (he : e.known) : 0 < e.level := by
  cases e with
  | binary op l r => exact leftPriority_pos op (mem_signs he)
  | name _ | number _ | text _ | unary _ _ | element _ _ | call _ _ => exact Nat.succ_pos 10

/-! ## Reading in a context -/

/-- What waits for an expression in a context. -/
def Context.stack : Context → List Pending → List Pending
  | .after l op, st => .binary op l :: st
  | _, st => st

/-- How tightly an expression is held in a context. -/
def Context.hold : Context → Nat
  | .after _ op => rightPriority op
  | _ => 11

/-- The operators of an expression do not take an operand from what waits before it, other
than the operand of the context. -/
def Fits : Context → List Pending → Expr → Prop
  | .none, st, e => grip st < e.level
  | .after _ op, st, e => grip st < leftPriority op ∧ groupsRight op = false ∧ leftPriority op ≤ e.level
  | .before _ _, _, _ => False

variable {c : Context}

theorem Context.reduce_stack (hf : Fits c st e) (hq : q ≤ c.hold) :
    reduce q (c.stack st) x = reduce q st (c.fill x) := by
  cases c with
  | none => rfl
  | after l op => exact reduce_binary hq
  | before op r => exact hf.elim

/-- The text of an expression after others is read as it is grafted there. -/
def ReadsAfter (e : Expr) : Prop :=
  ∀ c st, Fits c st e → Reads (c.stack st) e.tokens (min e.edge c.hold) st (e.graft c)

/-- The text of an expression that an index or a call can follow leaves nothing waiting. -/
def ReadsClosed (e : Expr) : Prop :=
  ∀ st, run (.wants st) e.tokens = some (.has st (e.graft .none) true)

/-- The text of a left operand and an operator that groups to the right is read so that
the operator and its right operand `r` make `f r`. -/
def ReadsBefore (op : BinaryOp) (ts : List Token) (f : Expr → Expr) : Prop :=
  ∀ st, grip st < leftPriority op →
    ∃ x st', run (.wants st) (ts ++ [.operator op]) = some (.wants (.binary op x :: st')) ∧
      ∀ q ≤ min (rightPriority op) unaryPriority, ∀ r,
        reduce q (.binary op x :: st') r = reduce q st (f r)

theorem ReadsAfter.group (h : ReadsAfter e) (he : e.known) (st : List Pending) :
    run (.wants st) (.openParen :: e.tokens ++ [.closeParen]) = some (.has st (e.graft .none) true) := by
  obtain ⟨pending, operand, closed, hrun, hred⟩ := h .none (.group :: st) (level_pos he)
  change run (.wants (.group :: st)) (e.tokens ++ [.closeParen]) = _
  rw [run_append, show run (.wants (.group :: st)) e.tokens = _ from hrun]
  simp [run, step, hred 0 (Nat.zero_le _), reduce]

theorem Reads.closed {b : Bool} (hf : Fits c st e)
    (h : run (.wants (c.stack st)) ts = some (.has (c.stack st) x b)) (hq : q ≤ c.hold) :
    Reads (c.stack st) ts q st (c.fill x) :=
  ⟨_, _, _, h, fun _ hp => Context.reduce_stack hf (Nat.le_trans hp hq)⟩

theorem ReadsClosed.after (h : ReadsClosed e) (hg : ∀ c, e.graft c = c.fill (e.graft .none)) :
    ReadsAfter e := by
  intro c st hf
  rw [hg]
  exact .closed hf (h _) (Nat.min_le_right _ _)

theorem Reads.afterOperator {before : List Pending}
    (hl : run (.wants st) (ts ++ [.operator op]) = some (.wants before))
    (hr : Reads before ts' q st' e) : Reads st (ts ++ .operator op :: ts') q st' e := by
  obtain ⟨pending, operand, closed, hrun, hred⟩ := hr
  refine ⟨pending, operand, closed, ?_, hred⟩
  rw [show ts ++ .operator op :: ts' = (ts ++ [.operator op]) ++ ts' by simp, run_append, hl]
  exact hrun

theorem Fits.mono (hf : Fits c st e) (h : e.level ≤ e'.level) : Fits c st e' := by
  cases c with
  | none => exact Nat.lt_of_lt_of_le hf h
  | after l op => exact ⟨hf.1, hf.2.1, Nat.le_trans hf.2.2 h⟩
  | before op r => exact hf.elim

theorem Fits.grip_lt (hf : Fits c st e) : grip st < e.level := by
  cases c with
  | none => exact hf
  | after l op => exact Nat.lt_of_lt_of_le hf.1 hf.2.2
  | before op r => exact hf.elim

/-! ## Every kind of expression -/

/-- The text of an expression is read as it is grafted, wherever it may stand. -/
structure Readable (e : Expr) : Prop where
  known : e.known
  after : ReadsAfter e
  closed : e.isPrefixed → ReadsClosed e
  before : ∀ op, groupsRight op = true → e.enclosedIn op = false →
    ReadsBefore op e.tokens (fun r => e.graft (.before op r))

theorem binarySign_of_groupsRight (h : groupsRight op = true) : (binarySign op).isSome := by
  rcases groupsRight_cases h with rfl | rfl <;> rfl

/-- An operator that ends its left operand takes it as it is read alone. -/
theorem ReadsAfter.before (h : ReadsAfter e) (hlevel : leftPriority op ≤ e.level)
    (hedge : leftPriority op ≤ e.edge)
    (hc : ∀ r, e.graft (.before op r) = .binary op (e.graft .none) r) :
    ReadsBefore op e.tokens (fun r => e.graft (.before op r)) := by
  intro st hg
  have hread := h .none st (Nat.lt_of_lt_of_le hg hlevel)
  have hq : leftPriority op ≤ min e.edge 11 :=
    Nat.le_min.mpr ⟨hedge, Nat.le_succ_of_le (leftPriority_le op)⟩
  refine ⟨_, _, hread.operator hq hg, fun q hq r => ?_⟩
  rw [reduce_binary (Nat.le_trans hq (Nat.min_le_left _ _))]
  exact congrArg (reduce q st) (hc r).symm

theorem ReadsAfter.before_group (h : ReadsAfter e) (he : e.known) :
    ReadsBefore op (.openParen :: e.tokens ++ [.closeParen])
      (fun r => .binary op (e.graft .none) r) := by
  intro st hg
  have hread : Reads st (.openParen :: e.tokens ++ [.closeParen]) 11 st (e.graft .none) :=
    ⟨_, _, _, h.group he st, fun _ _ => rfl⟩
  refine ⟨_, _, hread.operator (Nat.le_succ_of_le (leftPriority_le op)) hg, fun q hq r => ?_⟩
  rw [reduce_binary (Nat.le_trans hq (Nat.min_le_left _ _))]

theorem Readable.operand (h : Readable e) (enclosed : Bool) (hf : Fits c st e')
    (hu : enclosed = false → Fits c st e ∧ q ≤ e.edge) (hq : q ≤ c.hold) :
    Reads (c.stack st) (Expr.encloseTokens enclosed e.tokens) q st (e.graftIn enclosed c) := by
  cases enclosed with
  | true =>
    exact ⟨_, _, _, h.after.group h.known _, fun p hp => Context.reduce_stack hf (Nat.le_trans hp hq)⟩
  | false =>
    obtain ⟨pending, operand, closed, hrun, hred⟩ := h.after c st (hu rfl).1
    exact ⟨pending, operand, closed, hrun, fun p hp =>
      hred p (Nat.le_min.mpr ⟨Nat.le_trans hp (hu rfl).2, Nat.le_trans hp hq⟩)⟩

theorem Readable.operandBefore (h : Readable e) (hop : groupsRight op = true) :
    ReadsBefore op (Expr.encloseTokens (e.enclosedIn op) e.tokens)
      (fun r => e.graftIn (e.enclosedIn op) (.before op r)) := by
  cases he : e.enclosedIn op with
  | true => exact h.after.before_group h.known
  | false => exact h.before op hop he

theorem Readable.of_after (hknown : e.known) (hafter : ReadsAfter e)
    (hclosed : e.isPrefixed → ReadsClosed e)
    (hedge : ∀ op, groupsRight op = true → e.enclosedIn op = false → leftPriority op ≤ e.edge)
    (hc : ∀ op r, e.graft (.before op r) = .binary op (e.graft .none) r) : Readable e where
  known := hknown
  after := hafter
  closed := hclosed
  before op hop hn := hafter.before
    (level_of_not_enclosed (binarySign_of_groupsRight hop) hknown hn) (hedge op hop hn) (hc op)

theorem Readable.of_closed (hclosed : ReadsClosed e) (hknown : e.known) (hedge : e.edge = 11)
    (hc : ∀ c, e.graft c = c.fill (e.graft .none)) : Readable e :=
  .of_after hknown (hclosed.after hc) (fun _ => hclosed)
    (fun op _ _ => hedge ▸ Nat.le_succ_of_le (leftPriority_le op)) (fun op r => hc (.before op r))

theorem readsAfter_number (k : Int) : ReadsAfter (.number k) := by
  intro c st hf
  have hedge : (Expr.number k).edge = if k < 0 then unaryPriority else 11 := rfl
  by_cases hk : k < 0
  · have hgraft : (Expr.number k).graft c = c.fill (.unary .minus (.number (-k))) := by
      rw [Expr.graft, if_pos hk]
      cases c with
      | before _ _ => exact hf.elim
      | none | after _ _ => rfl
    have habs : (k.natAbs : Int) = -k := by omega
    rw [hgraft, hedge, if_pos hk, Expr.tokens, if_pos hk]
    refine ⟨_, _, _, rfl, fun p hp => ?_⟩
    rw [reduce_unary (Nat.le_trans hp (Nat.min_le_left _ _)), habs]
    exact Context.reduce_stack hf (Nat.le_trans hp (Nat.min_le_right _ _))
  · have habs : (k.natAbs : Int) = k := by omega
    rw [Expr.graft, if_neg hk, Expr.tokens, if_neg hk]
    refine .closed hf ?_ (Nat.min_le_right _ _) (b := false)
    change some (Reader.has _ (.number k.natAbs) false) = _
    rw [habs]

theorem readsBefore_negative {k : Int} (hk : k < 0) : ReadsBefore .pow (Expr.number k).tokens
    (fun r => (Expr.number k).graft (.before .pow r)) := by
  intro st _
  have habs : (k.natAbs : Int) = -k := by omega
  rw [Expr.tokens, if_pos hk]
  refine ⟨_, _, rfl, fun q hq r => ?_⟩
  have hgraft : (Expr.number k).graft (.before .pow r) =
      .unary .minus (.binary .pow (.number (-k)) r) := by
    rw [Expr.graft, if_pos hk]
    rfl
  rw [reduce_binary (Nat.le_trans hq (Nat.min_le_left _ _)),
    reduce_unary (Nat.le_trans hq (Nat.min_le_right _ _)), habs]
  exact congrArg (reduce q st) hgraft.symm

theorem readable_number (k : Int) : Readable (.number k) where
  known := rfl
  after := readsAfter_number k
  closed := nofun
  before op hop hn := by
    have hsome := binarySign_of_groupsRight hop
    by_cases hneg : op = .pow ∧ k < 0
    · obtain ⟨rfl, hk⟩ := hneg
      exact readsBefore_negative hk
    · refine (readsAfter_number k).before (level_of_not_enclosed hsome rfl hn) ?_ fun r => ?_
      · rcases edge_of_left (e := .number k) hsome rfl hn with h | ⟨_, l, r, h⟩ | ⟨h, k', hk, h'⟩
        · exact h
        · nomatch h
        · cases h'
          exact absurd ⟨h, hk⟩ hneg
      · rw [Expr.graft, Expr.graft]
        split
        · rename_i hk
          rcases groupsRight_cases hop with rfl | rfl
          · rfl
          · exact absurd ⟨rfl, hk⟩ hneg
        · rfl

theorem readable_name (x : String) : Readable (.name x) :=
  .of_closed (fun _ => by rw [Expr.graft]; rfl) rfl rfl fun _ => by rw [Expr.graft, Expr.graft]; rfl

theorem readable_text (s : String) : Readable (.text s) := by
  have hc : ∀ c, (Expr.text s).graft c = c.fill (.text s) := fun c => by rw [Expr.graft]
  refine .of_after rfl (fun c st hf => ?_) nofun
    (fun op _ _ => Nat.le_succ_of_le (leftPriority_le op)) fun op r => by rw [hc, hc]; rfl
  exact .closed hf (show _ = some (Reader.has _ (.text s) false) from rfl) (Nat.min_le_right _ _)

theorem level_of_unaryCodes : ∀ op ∈ [UnaryOp.not, .length, .minus], ∀ op' ∈ signs,
    ¬op'.code < op.code → unaryPriority < leftPriority op' ∧ unaryPriority ≤ rightPriority op' := by
  decide

theorem level_of_not_enclosedInUnary {op : UnaryOp} (hop : isUnarySign op) (he : e.known)
    (h : e.enclosedInUnary op = false) : unaryPriority < e.level ∧ unaryPriority ≤ e.edge := by
  cases e with
  | binary op' l r =>
    have hcodes := level_of_unaryCodes op (mem_unarySigns hop) op' (mem_signs he)
      (of_decide_eq_false h)
    exact ⟨hcodes.1, Nat.le_min.mpr ⟨hcodes.2, Nat.le_refl _⟩⟩
  | number k =>
    simp only [Expr.level, Expr.edge, unaryPriority]
    split <;> decide
  | name _ | text _ | unary _ _ | element _ _ | call _ _ =>
    simp [Expr.level, Expr.edge, unaryPriority]

theorem run_unaryToken {op : UnaryOp} (hop : isUnarySign op) :
    run (.wants st) (Expr.unaryToken op :: ts) = run (.wants (.unary op :: st)) ts := by
  cases op <;> first | rfl | cases hop

theorem Expr.graftIn_none (enclosed : Bool) (e : Expr) : e.graftIn enclosed .none = e.graft .none := by
  cases enclosed <;> rfl

theorem readable_unary {op : UnaryOp} (hop : isUnarySign op) (h : Readable e) :
    Readable (.unary op e) := by
  have hc : ∀ c, (Expr.unary op e).graft c = c.fill (.unary op (e.graft .none)) := fun c => by
    rw [Expr.graft]
  refine .of_after hop (fun c st hf => ?_) nofun (fun o ho hn => ?_) fun o r => by rw [hc, hc]; rfl
  · have hfits : Fits .none (.unary op :: c.stack st) (.unary op e) := (by decide : 8 < 11)
    have hread := h.operand (e.enclosedInUnary op) hfits
      (fun hn => level_of_not_enclosedInUnary hop h.known hn) (by decide)
    obtain ⟨pending, operand, closed, hrun, hred⟩ := hread
    refine ⟨pending, operand, closed, ?_, fun p hp => ?_⟩
    · rw [Expr.tokens, run_unaryToken hop]
      exact hrun
    · have hp' : p ≤ unaryPriority := Nat.le_trans hp (Nat.min_le_left _ _)
      rw [hred p hp', Expr.graftIn_none, reduce_unary hp', hc]
      exact Context.reduce_stack hf (Nat.le_trans hp (Nat.min_le_right _ _))
  · have hsome := binarySign_of_groupsRight ho
    rcases edge_of_left (e := .unary op e) hsome hop hn with h | ⟨_, _, _, h⟩ | ⟨_, _, _, h⟩
    · exact h
    · nomatch h
    · nomatch h

/-! ### Binary operators -/

/-- Operators that group to the left, where nothing that waits takes the left operand. -/
theorem reads_left (hop : (binarySign op).isSome) (hg : groupsRight op = false) (hl : Readable l)
    (hr : Readable r) (hf : Fits c st (.binary op l r)) (hhold : leftPriority op ≤ c.hold) :
    Reads (c.stack st) (Expr.binary op l r).tokens (Expr.binary op l r).edge st
      (r.graftIn (r.enclosedIn op) (.after (l.graftIn (l.enclosedIn op) c) op)) := by
  have hgrip : grip st < leftPriority op := hf.grip_lt
  have hleft : Reads (c.stack st) (Expr.encloseTokens (l.enclosedIn op) l.tokens) (leftPriority op) st
      (l.graftIn (l.enclosedIn op) c) := by
    refine hl.operand _ hf (fun hn => ⟨hf.mono (level_of_not_enclosed hop hl.known hn), ?_⟩) hhold
    rcases edge_of_left hop hl.known hn with h | ⟨h, _⟩ | ⟨rfl, _⟩
    · exact h
    · simp [h] at hg
    · cases hg
  have hfits : Fits (.after (l.graftIn (l.enclosedIn op) c) op) st (.binary op l r) :=
    ⟨hgrip, hg, Nat.le_refl _⟩
  refine .afterOperator (hleft.operator (Nat.le_refl _) hgrip) ?_
  exact hr.operand _ hfits (fun hn => ⟨hfits.mono (level_of_not_enclosed hop hr.known hn),
    edge_of_not_enclosed hop hr.known hn⟩) (Nat.min_le_left _ _)

theorem reads_right (hg : groupsRight op = true) (hl : Readable l) (hr : Readable r)
    (hgrip : grip st < leftPriority op) :
    Reads st (Expr.binary op l r).tokens (Expr.binary op l r).edge st
      (l.graftIn (l.enclosedIn op) (.before op (r.graft .none))) := by
  have hop := binarySign_of_groupsRight hg
  have hlt : rightPriority op < leftPriority op := of_decide_eq_true hg
  obtain ⟨x, st', hrun, hred⟩ := hl.operandBefore hg st hgrip
  have hfits : Fits .none (.binary op x :: st') (.binary op l r) := hlt
  have hright := hr.operand (q := (Expr.binary op l r).edge) (r.enclosedIn op) hfits
    (fun hn => ⟨hfits.mono (level_of_not_enclosed hop hr.known hn),
      edge_of_not_enclosed hop hr.known hn⟩)
    (Nat.le_trans (Nat.min_le_right _ _) (by decide))
  rw [Expr.graftIn_none] at hright
  obtain ⟨pending, operand, closed, hrun', hred'⟩ := hright
  refine .afterOperator hrun ⟨pending, operand, closed, hrun', fun p hp => ?_⟩
  exact (hred' p hp).trans (hred p hp _)

theorem Reads.mono {p : Nat} (h : Reads st ts q st' e) (hp : p ≤ q) : Reads st ts p st' e := by
  obtain ⟨pending, operand, closed, hrun, hred⟩ := h
  exact ⟨pending, operand, closed, hrun, fun p' hp' => hred p' (Nat.le_trans hp' hp)⟩

theorem Reads.fill (hf : Fits c st e) (h : Reads (c.stack st) ts q (c.stack st) x) :
    Reads (c.stack st) ts (min q c.hold) st (c.fill x) := by
  obtain ⟨pending, operand, closed, hrun, hred⟩ := h
  refine ⟨pending, operand, closed, hrun, fun p hp => ?_⟩
  rw [hred p (Nat.le_trans hp (Nat.min_le_left _ _))]
  exact Context.reduce_stack hf (Nat.le_trans hp (Nat.min_le_right _ _))

/-- Only operators that group to the left are beside each other without parentheses. -/
theorem Fits.groups_of_flat (hf : Fits c st (.binary op l r)) (hflat : c.flat op = true) :
    groupsRight op = false ∧ leftPriority op ≤ c.hold := by
  cases c with
  | none => cases hflat
  | before _ _ => exact hf.elim
  | after l' o =>
    have hle : leftPriority op ≤ rightPriority o := of_decide_eq_true hflat
    obtain ⟨-, ho, hlevel⟩ := hf
    refine ⟨?_, hle⟩
    have heq : leftPriority op = leftPriority o := by
      have := priority_of_not_groupsRight ho
      have : leftPriority o ≤ leftPriority op := hlevel
      omega
    cases hg : groupsRight op with
    | false => rfl
    | true =>
      rcases groupsRight_cases hg with rfl | rfl <;>
        cases o <;> simp_all [leftPriority, rightPriority, groupsRight]

theorem Fits.grip_stack (hf : Fits c st (.binary op l r)) (hflat : c.flat op = false) :
    grip (c.stack st) < leftPriority op := by
  cases c with
  | none => exact hf
  | after l' o => exact Nat.lt_of_not_le (of_decide_eq_false hflat)
  | before _ _ => exact hf.elim

theorem readsAfter_binary (hop : (binarySign op).isSome) (hl : Readable l) (hr : Readable r) :
    ReadsAfter (.binary op l r) := by
  intro c st hf
  rw [Expr.graft_binary]
  cases hflat : c.flat op with
  | true =>
    obtain ⟨hg, hhold⟩ := hf.groups_of_flat hflat
    simp only [hg, if_true, Bool.false_eq_true, if_false, Context.fill]
    exact (reads_left hop hg hl hr hf hhold).mono (Nat.min_le_left _ _)
  | false =>
    have hgrip := hf.grip_stack hflat
    simp only [Bool.false_eq_true, if_false]
    refine Reads.fill hf ?_
    cases hg : groupsRight op with
    | true =>
      simp only [if_true, Expr.graftIn_none]
      exact reads_right hg hl hr hgrip
    | false =>
      exact reads_left (c := .none) hop hg hl hr hgrip (Nat.le_succ_of_le (leftPriority_le op))

/-- Operands of one operator that groups to the right are grouped anew. -/
theorem readsBefore_binary (hg : groupsRight op = true) (hl : Readable l) (hr : Readable r) :
    ReadsBefore op (Expr.binary op l r).tokens (fun z => (Expr.binary op l r).graft (.before op z)) := by
  intro st hgrip
  obtain ⟨x, st', hrun, hred⟩ := hl.operandBefore hg st hgrip
  obtain ⟨y, st'', hrun', hred'⟩ := hr.operandBefore hg (.binary op x :: st') (of_decide_eq_true hg)
  refine ⟨y, st'', ?_, fun q hq z => ?_⟩
  · rw [Expr.tokens, show ∀ ts ts' : List Token, ts ++ .operator op :: ts' ++ [.operator op] =
      (ts ++ [.operator op]) ++ (ts' ++ [.operator op]) by simp, run_append, hrun]
    exact hrun'
  · have hflat : (Context.before op z).flat op = true := beq_self_eq_true op
    have hgraft : (Expr.binary op l r).graft (.before op z) = l.graftIn (l.enclosedIn op)
        (.before op (r.graftIn (r.enclosedIn op) (.before op z))) := by
      rw [Expr.graft_binary, hflat, hg]
      rfl
    rw [hred' q hq z, hred q hq]
    exact congrArg (reduce q st) hgraft.symm

theorem readable_binary (hop : (binarySign op).isSome) (hl : Readable l) (hr : Readable r) :
    Readable (.binary op l r) where
  known := hop
  after := readsAfter_binary hop hl hr
  closed := nofun
  before o ho hn := by
    have hsome := binarySign_of_groupsRight ho
    by_cases hsame : op = o
    · subst hsame
      exact readsBefore_binary ho hl hr
    · refine (readsAfter_binary hop hl hr).before (level_of_not_enclosed hsome hop hn) ?_ fun z => ?_
      · rcases edge_of_left (e := .binary op l r) hsome hop hn with h | ⟨_, _, _, h⟩ | ⟨_, _, _, h⟩
        · exact h
        · cases h
          exact absurd rfl hsame
        · nomatch h
      · have hflat : (Context.before o z).flat op = false := by
          simpa [Context.flat] using hsame
        rw [Expr.graft_binary, Expr.graft_binary, hflat]
        rfl

/-! ### Indices and calls -/

theorem readsClosed_element {t k : Expr} (ht : ReadsClosed t) (hk : k.bareKey? = none → Readable k) :
    ReadsClosed (.element t k) := by
  intro st
  rw [Expr.tokens, Expr.graft, run_append, ht st]
  cases hbare : k.bareKey? with
  | some x =>
    have hkey : k.graft .none = .text x := by
      cases k <;> simp only [Expr.bareKey?, reduceCtorEq] at hbare
      split at hbare
      · cases hbare
        rfl
      · nomatch hbare
    rw [hkey]
    rfl
  | none =>
    obtain ⟨pending, operand, closed, hrun, hred⟩ :=
      (hk hbare).after .none (.key (t.graft .none) :: st) (level_pos (hk hbare).known)
    change run (.wants (.key _ :: st)) (k.tokens ++ [.closeKey]) = _
    rw [run_append, show run (.wants (.key _ :: st)) k.tokens = _ from hrun]
    simp [run, step, hred 0 (Nat.zero_le _), reduce, Context.fill]

theorem run_arguments (hes : es ≠ []) (h : ∀ e ∈ es, Readable e) (f : Expr) (as : List Expr) :
    run (.wants (.arguments f as :: st)) (Expr.tokensOfList es ++ [.closeParen]) =
      some (.has st (.call f (as ++ Expr.graftList es)) true) := by
  induction es generalizing as with
  | nil => exact absurd rfl hes
  | cons e es ih =>
    have he := h e List.mem_cons_self
    obtain ⟨pending, operand, closed, hrun, hred⟩ :=
      he.after .none (.arguments f as :: st) (level_pos he.known)
    replace hrun : run (.wants (.arguments f as :: st)) e.tokens = _ := hrun
    cases es with
    | nil =>
      rw [Expr.tokensOfList, run_append, hrun]
      simp [run, step, hred 0 (Nat.zero_le _), reduce, Expr.graftList]
    | cons e' es =>
      have hrest := ih nofun (fun a ha => h a (List.mem_cons_of_mem _ ha)) (as ++ [e.graft .none])
      rw [Expr.tokensOfList, List.append_assoc, run_append, hrun, Expr.graftList]
      · simp [run, step, hred 0 (Nat.zero_le _), reduce, hrest]
      · nofun

theorem readsClosed_call {f : Expr} (hf : ReadsClosed f) (hes : ∀ e ∈ es, Readable e) :
    ReadsClosed (.call f es) := by
  intro st
  rw [Expr.tokens, Expr.graft, List.append_assoc, run_append, hf st]
  cases es with
  | nil => rfl
  | cons e es => exact run_arguments (List.cons_ne_nil e es) hes _ []

mutual

theorem readable_of_printable : ∀ {e : Expr}, e.printable → Readable e
  | .name x, _ => readable_name x
  | .number k, _ => readable_number k
  | .text s, _ => readable_text s
  | .unary op e, h => by
    simp only [Expr.printable, Bool.and_eq_true] at h
    exact readable_unary h.1.1 (readable_of_printable h.1.2)
  | .binary op l r, h => by
    simp only [Expr.printable, Bool.and_eq_true] at h
    exact readable_binary h.1.1 (readable_of_printable h.1.2) (readable_of_printable h.2)
  | .element t k, h => by
    simp only [Expr.printable, Bool.and_eq_true] at h
    have hk : k.bareKey? = none → Readable k := fun hbare => by
      rw [hbare] at h
      simp only [Bool.and_eq_true] at h
      exact readable_of_printable h.2.1
    have ht := readable_of_printable h.1.2
    refine .of_closed (readsClosed_element (ht.closed h.1.1) hk) rfl rfl fun c => ?_
    rw [Expr.graft, Expr.graft]
    rfl
  | .call f as, h => by
    simp only [Expr.printable, Bool.and_eq_true] at h
    have hf := readable_of_printable h.1.2
    have hes := readable_of_printableList h.2
    refine .of_closed (readsClosed_call (hf.closed h.1.1) hes) rfl rfl fun c => ?_
    rw [Expr.graft, Expr.graft]
    rfl

theorem readable_of_printableList : ∀ {es : List Expr}, Expr.printableList es → ∀ e ∈ es, Readable e
  | [], _ => nofun
  | e :: es, h => by
    simp only [Expr.printableList, Bool.and_eq_true] at h
    exact List.forall_mem_cons.mpr ⟨readable_of_printable h.1, readable_of_printableList h.2⟩

end

/-- The tokens of an expression are read as the expression with its operators grouped anew. -/
theorem Expr.parse_tokens (h : e.printable) : Expr.parse e.tokens = some e.regroup := by
  have hr := readable_of_printable h
  obtain ⟨pending, operand, closed, hrun, hred⟩ := hr.after .none [] (level_pos hr.known)
  rw [Expr.parse, show run (.wants []) e.tokens = _ from hrun]
  simp only [hred 0 (Nat.zero_le _), reduce]
  rfl

/-- The text of an expression is read as the expression with its operators grouped anew. -/
theorem Expr.read_spelling (h : e.printable) : Expr.read e.spelling = some e.regroup := by
  have hlex : lex (e.chars ++ []) = some (e.tokens ++ []) := lex_chars h rfl fun _ hc => nomatch hc
  rw [List.append_nil, List.append_nil] at hlex
  rw [Expr.read, Expr.spelling, String.toList_ofList, hlex]
  exact Expr.parse_tokens h

end

end LuaLift.Proofs
