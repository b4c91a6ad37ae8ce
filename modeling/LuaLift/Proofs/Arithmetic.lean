import LuaLift.Proofs.Succeeding
import LuaLift.Lift.Statement

/-! # Values of arithmetic instructions

The description of an arithmetic instruction says which of its operands stands left of the
operator: B, except where a number comes first in a family of its own. The assignment that
stands for the instruction has the slot on the left in every family, since the kinds of the
operands do not tell those with the number first from those with the number last.
`variableAssignment_stores_described_iff` says when the two agree all the same. -/
namespace LuaLift.Proofs
open Bytecode Tree Lift

/-- What slots and numbers stand for, and what the operators make of two values. -/
structure Arithmetic (V : Type) where
  ofSlot : Int → V
  ofNumber : Number → V
  apply : BinaryOp → V → V → V

/-! ## What a description says -/

/-- The arithmetic instructions, which are numbered in a row. -/
def isArithmetic (o : Opcode) : Bool :=
  Opcode.addvn.number ≤ o.number && o.number ≤ Opcode.pow.number

/-- The instructions of the family that has the number on the left. -/
def hasNumberFirst (o : Opcode) : Bool :=
  Opcode.addnv.number ≤ o.number && o.number ≤ Opcode.modnv.number

/-- The operator that a sign of a description stands for. -/
def operatorOfSign : String → Option BinaryOp
  | " + " => some .add
  | " - " => some .subtract
  | " * " => some .multiply
  | " / " => some .divide
  | " % " => some .mod
  | " ^ " => some .pow
  | _ => none

section
variable {V : Type} (m : Arithmetic V) (p : Prototype) (i : Instruction)

/-- What an operand of a kind stands for. -/
def valueOfOperand (kind : Option OperandKind) (x : Option Int) : Option V :=
  match kind, x with
  | some .var, some k => some (m.ofSlot k)
  | some .number, some k => (at? p.numbers k).map m.ofNumber
  | _, _ => none

def holeValue : Hole → Option V
  | .b => valueOfOperand m p i.shape.b i.b
  | .c => valueOfOperand m p i.shape.cd i.cd
  | _ => none

/-- The operator that a description gives, between what stands left and right of it. -/
def described? (o : Opcode) : Option (Hole × BinaryOp × Hole) :=
  match o.shape.description with
  | .hole .a :: .text " = " :: .hole x :: .text sign :: .hole y :: _ =>
    (operatorOfSign sign).map fun op => (x, op, y)
  | _ => none

/-- The value that the description of an instruction gives to operand A. -/
def describedValue : Option V := do
  let (x, op, y) ← described? i.op
  return m.apply op (← holeValue m p i x) (← holeValue m p i y)

end

/-! ## What an assignment stores -/

/-- The value of an expression of slots and numbers. -/
inductive Computes {V : Type} (s : Store) (m : Arithmetic V) : NodeId → V → Prop
  | slot {i x} : s.node i = .identifier x → x.kind = .slot → Computes s m i (m.ofSlot x.slot)
  | number {i k n} : s.node i = .constant k (.number n) → Computes s m i (m.ofNumber n)
  | binary {i op l r u v} : s.node i = .binary op l r → Computes s m l u → Computes s m r v →
      Computes s m i (m.apply op u v)

section
variable {V : Type} {s s' : Store} {m : Arithmetic V}

theorem Computes.det {i : NodeId} {u v : V} (h : Computes s m i u) (h' : Computes s m i v) :
    u = v := by
  induction h generalizing v with
  | slot hn | number hn => cases h' <;> simp_all
  | binary hn _ _ ihl ihr =>
    cases h' with
    | binary hn' hl' hr' =>
      rw [hn] at hn'; cases hn'
      rw [ihl hl', ihr hr']
    | slot hn' | number hn' => rw [hn] at hn'; cases hn'

theorem Computes.grows {i : NodeId} {u : V} (h : Computes s m i u) (hg : Grows s s') :
    Computes s' m i u := by
  induction h with
  | slot hn hk => exact .slot (hg.node_eq hn nofun) hk
  | number hn => exact .number (hg.node_eq hn nofun)
  | binary hn _ _ ihl ihr => exact .binary (hg.node_eq hn nofun) ihl ihr

/-- A statement assigns an expression, and nothing else, to the slot `a`. -/
inductive AssignsSlot (s : Store) (i : NodeId) (a : Int) (e : NodeId) : Prop
  | intro {k es ds d x} : s.node i = .assignment k es ds → s.node es = .list .expressions [e] →
      s.node ds = .list .targets [d] → s.node d = .identifier x → x.kind = .slot → x.slot = a →
      AssignsSlot s i a e

/-- A statement stores a value in a slot. -/
def StoresInSlot (s : Store) (m : Arithmetic V) (i : NodeId) (a : Int) (u : V) : Prop :=
  ∃ e, AssignsSlot s i a e ∧ Computes s m e u

theorem AssignsSlot.unique {i e e' : NodeId} {a a' : Int} (h : AssignsSlot s i a e)
    (h' : AssignsSlot s i a' e') : e = e' := by
  obtain ⟨hi, he⟩ := h
  obtain ⟨hi', he'⟩ := h'
  rw [hi] at hi'; cases hi'
  rw [he] at he'; cases he'
  rfl

theorem StoresInSlot.det {i : NodeId} {a : Int} {u v : V} (h : StoresInSlot s m i a u)
    (h' : StoresInSlot s m i a v) : u = v := by
  obtain ⟨e, ha, hu⟩ := h
  obtain ⟨e', ha', hv⟩ := h'
  cases ha.unique ha'
  exact hu.det hv

end

/-! ## The steps that build it -/

section
variable {p : Prototype} {i : Instruction} {a b c address : Int} {w : Work Unit}

/-- A step adds a node that computes `u`, whatever slots and numbers stand for, and leaves the
nodes alone that are there. -/
def AddsNode (q : Edit NodeId) (w : Work Unit) (u : (V : Type) → Arithmetic V → V) : Prop :=
  Succeeds q w fun e w' => Grows w.store w'.store ∧ ∀ V m, Computes w'.store m e (u V m)

theorem adds_slot (k : Int) : AddsNode (slot address k) w fun _ m => m.ofSlot k :=
  (succeeds_added _ w).mono fun _ _ ⟨hg, hn⟩ => ⟨hg, fun _ _ => .slot hn rfl⟩

theorem adds_numericConstant {n : Number} (hn : at? p.numbers c = some n) :
    AddsNode (numericConstant p c) w fun _ m => m.ofNumber n := by
  refine Succeeds.bind (succeeds_atPosition hn ?_)
  cases n <;> exact (succeeds_added _ w).mono fun _ _ ⟨hg, hn⟩ => ⟨hg, fun _ _ => .number hn⟩

theorem AddsNode.binary {q r : Edit NodeId} {u v : (V : Type) → Arithmetic V → V} {op : BinaryOp}
    (hq : AddsNode q w u) (hr : ∀ w, AddsNode r w v) :
    AddsNode (do let x ← q; let y ← r; Pass.add (.binary op x y)) w
      fun V m => m.apply op (u V m) (v V m) := by
  refine Succeeds.next hq fun x w1 ⟨hg1, hx⟩ => ?_
  refine Succeeds.next (hr w1) fun y w2 ⟨hg2, hy⟩ => ?_
  refine (succeeds_added _ w2).mono fun e w3 ⟨hg3, he⟩ => ⟨(hg1.trans hg2).trans hg3, fun V m => ?_⟩
  exact .binary he ((hx V m).grows (hg2.trans hg3)) ((hy V m).grows hg3)

theorem shape_of_isArithmetic {o : Opcode} (h : isArithmetic o) :
    o.shape.a = some .dst ∧ o.shape.b = some .var ∧
      (o.shape.cd = some .var ∨ o.shape.cd = some .number) := by
  cases o <;> first | exact absurd h (by decide) | decide

theorem described?_of_isArithmetic {o : Opcode} (h : isArithmetic o) :
    described? o = some (if hasNumberFirst o then (.c, arithmeticOp o.number, .b)
      else (.b, arithmeticOp o.number, .c)) := by
  cases o <;> first | exact absurd h (by decide) | decide

/-- No instruction in front of the arithmetic ones is taken for one, and none of them for another. -/
theorem assignedValue_of_isArithmetic (child : Prototype → Edit NodeId) (h : isArithmetic i.op)
    (hcode : i.code = i.op.number) :
    assignedValue child p address i = binaryExpression p address i := by
  have hle : i.code ≤ Opcode.pow.number := by
    rw [hcode]; simp only [isArithmetic, Bool.and_eq_true, decide_eq_true_eq] at h; exact h.2
  have hm : i.meaning = some i.op := by rw [Instruction.meaning, hcode, Opcode.ofNumber?_number]
  unfold assignedValue
  rw [hm]
  generalize i.op = o at h
  cases o <;> first | exact absurd h (by decide) | simp only [hle, if_true]

theorem adds_binaryExpression (address : Int) (w : Work Unit) (h : isArithmetic i.op)
    (hb : i.b = some b) (hc : i.cd = some c)
    (hn : i.shape.cd = some .number → (at? p.numbers c).isSome) :
    ∃ v : (V : Type) → Arithmetic V → V, (∀ V m, holeValue m p i .c = some (v V m)) ∧
      AddsNode (binaryExpression p address i) w fun V m =>
        m.apply (arithmeticOp i.code) (m.ofSlot b) (v V m) := by
  obtain ⟨-, hkb, hkc⟩ := shape_of_isArithmetic h
  unfold binaryExpression
  simp only [holeValue, valueOfOperand, Instruction.shape, hkb, hb, hc, operand, pure_bind]
  rcases hkc with hkc | hkc
  · simp only [hkc]
    exact ⟨fun _ m => m.ofSlot c, fun _ _ => rfl, (adds_slot b).binary fun _ => adds_slot c⟩
  · obtain ⟨n, hn⟩ := Option.isSome_iff_exists.mp (hn hkc)
    simp only [hkc, hn, Option.map_some]
    exact ⟨fun _ m => m.ofNumber n, fun _ _ => rfl,
      (adds_slot b).binary fun _ => adds_numericConstant hn⟩

theorem stores_assignment {q : Edit NodeId} {u : (V : Type) → Arithmetic V → V} (hq : AddsNode q w u) :
    Succeeds (do let e ← q; let d ← slot address a; assignment [d] [e]) w fun k w' =>
      Grows w.store w'.store ∧ ∀ V m, StoresInSlot w'.store m k a (u V m) := by
  refine Succeeds.next hq fun e w1 ⟨hg1, he⟩ => ?_
  refine Succeeds.next (succeeds_added _ w1) fun d w2 ⟨hg2, hd⟩ => ?_
  refine Succeeds.next (succeeds_added _ w2) fun es w3 ⟨hg3, hes⟩ => ?_
  refine Succeeds.next (succeeds_added _ w3) fun ds w4 ⟨hg4, hds⟩ => ?_
  refine (succeeds_added _ w4).mono fun k w5 ⟨hg5, hk⟩ => ?_
  have hg35 := (hg3.trans hg4).trans hg5
  refine ⟨(hg1.trans hg2).trans hg35, fun V m => ⟨e, ?_, (he V m).grows (hg2.trans hg35)⟩⟩
  exact .intro hk ((hg4.trans hg5).node_eq hes nofun) (hg5.node_eq hds nofun)
    (hg35.node_eq hd nofun) rfl rfl

theorem describedValue_of_isArithmetic {V : Type} {m : Arithmetic V} {u v : V}
    (h : isArithmetic i.op) (hu : holeValue m p i .b = some u) (hv : holeValue m p i .c = some v) :
    describedValue m p i = some (if hasNumberFirst i.op then m.apply (arithmeticOp i.op.number) v u
      else m.apply (arithmeticOp i.op.number) u v) := by
  unfold describedValue
  rw [described?_of_isArithmetic h]
  by_cases hfirst : hasNumberFirst i.op <;> simp [hfirst, hu, hv]

/-- The assignment that stands for an arithmetic instruction stores `B op C` in slot A. -/
theorem variableAssignment_stores (child : Prototype → Edit NodeId)
    (h : isArithmetic i.op) (hcode : i.code = i.op.number) (ha : i.a = some a) (hb : i.b = some b)
    (hc : i.cd = some c) (hn : i.shape.cd = some .number → (at? p.numbers c).isSome) :
    Succeeds (variableAssignment child p address i) w fun k w' =>
      Grows w.store w'.store ∧ ∀ (V : Type) (m : Arithmetic V), ∃ u v,
        holeValue m p i .b = some u ∧ holeValue m p i .c = some v ∧
        StoresInSlot w'.store m k a (m.apply (arithmeticOp i.op.number) u v) := by
  obtain ⟨hka, hkb, -⟩ := shape_of_isArithmetic h
  obtain ⟨v, hv, hadds⟩ := adds_binaryExpression address w h hb hc hn
  have heq : variableAssignment child p address i = (do
      let e ← binaryExpression p address i; let d ← slot address a; assignment [d] [e]) := by
    unfold variableAssignment
    rw [assignedValue_of_isArithmetic child h hcode]
    simp only [ha, operand, pure_bind, Instruction.shape, hka, if_true]
  rw [heq]
  refine (stores_assignment hadds).mono fun k w' ⟨hg, hstores⟩ => ⟨hg, fun V m => ?_⟩
  refine ⟨m.ofSlot b, v V m, ?_, hv V m, hcode ▸ hstores V m⟩
  simp only [holeValue, valueOfOperand, Instruction.shape, hkb, hb]

/-- The description of an arithmetic instruction gives `B op C`, or `C op B` where the number
comes first, and the assignment that stands for it stores `B op C`: the value described is stored
unless the number comes first and the operator depends on the order of these operands. -/
theorem variableAssignment_stores_described_iff (child : Prototype → Edit NodeId)
    (h : isArithmetic i.op) (hcode : i.code = i.op.number) (ha : i.a = some a) (hb : i.b = some b)
    (hc : i.cd = some c) (hn : i.shape.cd = some .number → (at? p.numbers c).isSome) :
    Succeeds (variableAssignment child p address i) w fun k w' =>
      Grows w.store w'.store ∧ ∀ (V : Type) (m : Arithmetic V), ∃ op u v x,
        holeValue m p i .b = some u ∧ holeValue m p i .c = some v ∧
        described? i.op = some (if hasNumberFirst i.op then (.c, op, .b) else (.b, op, .c)) ∧
        describedValue m p i = some x ∧ StoresInSlot w'.store m k a (m.apply op u v) ∧
        (StoresInSlot w'.store m k a x ↔
          (hasNumberFirst i.op → m.apply op u v = m.apply op v u)) := by
  refine (variableAssignment_stores child h hcode ha hb hc hn).mono fun k w' ⟨hg, hstores⟩ =>
    ⟨hg, fun V m => ?_⟩
  obtain ⟨u, v, hu, hv, hst⟩ := hstores V m
  refine ⟨_, u, v, _, hu, hv, described?_of_isArithmetic h,
    describedValue_of_isArithmetic h hu hv, hst, ?_⟩
  by_cases hfirst : hasNumberFirst i.op
  · simp only [hfirst, if_true, forall_const]
    exact ⟨hst.det, fun he => he ▸ hst⟩
  · simp only [hfirst, Bool.false_eq_true, if_false, false_implies, iff_true]
    exact hst

end

/-! ## The number one before and after a minus sign -/

/-- A function with the number one as its only numeric constant. -/
def oneNumber : Prototype where
  flags := {}
  argumentCount := 0
  framesize := 2
  firstLine := 0
  lineCount := 0
  instructions := []
  upvalues := []
  complex := []
  numbers := [.int 1]
  debug := default

/-- Integers, with slot `k` at ten times `k`. -/
def integers : Arithmetic Int where
  ofSlot k := 10 * k
  ofNumber
    | .int n => n
    | .double _ => 0
  apply
    | .add => (· + ·)
    | .subtract => (· - ·)
    | .multiply => (· * ·)
    | _ => fun _ _ => 0

/-- An instruction that makes slot 0 from slot 1 and the first number. -/
def withOne (o : Opcode) : Instruction := ⟨o, o.number, some 0, some 1, some 0⟩

def noChild : Prototype → Edit NodeId := fun _ => throw .noPart

theorem slot_minus_one_stored :
    isArithmetic .subvn ∧ (at? oneNumber.numbers 0).isSome ∧
      Succeeds (variableAssignment noChild oneNumber 1 (withOne .subvn)) ⟨⟨#[]⟩, ()⟩ fun k w' =>
        ∃ x, describedValue integers oneNumber (withOne .subvn) = some x ∧
          StoresInSlot w'.store integers k 0 x := by
  refine ⟨by decide, by decide, ?_⟩
  refine (variableAssignment_stores_described_iff (i := withOne .subvn) noChild (by decide) rfl rfl
    rfl rfl (by decide)).mono fun k w' ⟨_, hall⟩ => ?_
  obtain ⟨_, _, _, x, _, _, _, hx, _, hiff⟩ := hall Int integers
  exact ⟨x, hx, hiff.mpr nofun⟩

/-- `1 - slot1` is described and `slot1 - 1` is stored. -/
theorem one_minus_slot_not_stored :
    describedValue integers oneNumber (withOne .subnv) = some (1 - 10) ∧
      Succeeds (variableAssignment noChild oneNumber 1 (withOne .subnv)) ⟨⟨#[]⟩, ()⟩ fun k w' =>
        StoresInSlot w'.store integers k 0 (10 - 1) ∧
          ¬ StoresInSlot w'.store integers k 0 (1 - 10) := by
  refine ⟨by decide, ?_⟩
  refine (variableAssignment_stores (i := withOne .subnv) noChild (by decide) rfl rfl
    rfl rfl (by decide)).mono fun k w' ⟨_, hall⟩ => ?_
  obtain ⟨u, v, hu, hv, hst⟩ := hall Int integers
  cases hu
  cases hv
  exact ⟨hst, fun h => absurd (h.det hst) (by decide)⟩

end LuaLift.Proofs
