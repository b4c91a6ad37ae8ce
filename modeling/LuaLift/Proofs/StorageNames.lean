import LuaLift.Proofs.Branching
import LuaLift.Proofs.Growth
import LuaLift.Tree.Equality

/-! # Storage and its identifiers

An operand denotes a slot of the frame or an upvalue. The identifiers that are made for operands tell
different storage apart, except that an upvalue without a name looks like the slot of its number. -/
namespace LuaLift.Proofs
open Bytecode Tree Lift

inductive Storage where
  | slot (n : Int)
  | upvalue (n : Int)
deriving DecidableEq

/-- The storage that an operand with value `n` denotes. -/
def storage? (n : Int) : OperandKind → Option Storage
  | .var | .dst | .base | .readBase => some (.slot n)
  | .upvalue => some (.upvalue n)
  | _ => none

/-- The storage that the operands of an instruction denote. -/
def storageOf (i : Instruction) : List Storage :=
  [(i.shape.a, i.a), (i.shape.b, i.b), (i.shape.cd, i.cd)].filterMap fun (kind, value) => do
    storage? (← value) (← kind)

/-- The identifier for storage, as it is used at an address. -/
def Storage.identify (p : Prototype) (address : Int) : Storage → Edit NodeId
  | slot n => Lift.slot address n
  | upvalue n => Lift.upvalue p address n

/-- The kind and number of the identifier for storage. -/
def Storage.label (p : Prototype) : Storage → IdentifierKind × Int
  | slot n => (.slot, n)
  | upvalue n => (if (p.debug.upvalueName? n).isSome then .upvalue else .slot, n)

variable {p : Prototype} {x y : Storage} {w w' w'' : Work Unit} {i j : NodeId} {a b : Int}

theorem returns_identify (p : Prototype) (a : Int) (x : Storage) (w : Work Unit) :
    ∃ i w', Returns (x.identify p a) w i w' := by
  cases x with
  | slot n => exact ⟨_, _, rfl⟩
  | upvalue n =>
    change ∃ i w', Returns (Lift.upvalue p a n) w i w'
    unfold Lift.upvalue
    split <;> exact ⟨_, _, rfl⟩

theorem identify_label (h : Returns (x.identify p a) w i w') :
    Grows w.store w'.store ∧ ∃ id, w'.store.node i = .identifier id ∧ (id.kind, id.slot) = x.label p := by
  have hadd : ∀ {id}, Returns (Pass.addAt a (.identifier id)) w i w' →
      Grows w.store w'.store ∧ w'.store.node i = .identifier id := by
    intro id h
    obtain ⟨rfl, rfl⟩ := returns_addCell h
    exact ⟨grows_push _ _, by simp [Store.node, cell_push_self]⟩
  cases x with
  | slot n => exact ⟨(hadd h).1, _, (hadd h).2, rfl⟩
  | upvalue n =>
    change Returns (Lift.upvalue p a n) w i w' at h
    unfold Lift.upvalue at h
    split at h <;> rename_i hn <;> exact ⟨(hadd h).1, _, (hadd h).2, by simp [Storage.label, hn]⟩

theorem identify_equal (hx : Returns (x.identify p a) w i w') (hy : Returns (y.identify p b) w' j w'') :
    w''.store.equal i j = .ok (x.label p == y.label p) := by
  obtain ⟨-, id, hi, hid⟩ := identify_label hx
  obtain ⟨hg, id', hj, hid'⟩ := identify_label hy
  have hi' := hg.node_eq hi nofun
  rw [← hid, ← hid', Store.equal, Store.depth]
  simp only [equalTo, hi', hj]
  rfl

theorem eq_of_label (h : x.label p = y.label p)
    (hnamed : ∀ n, (x = .slot n ∧ y = .upvalue n ∨ x = .upvalue n ∧ y = .slot n) →
      (p.debug.upvalueName? n).isSome) :
    x = y := by
  cases x <;> cases y <;> obtain ⟨hkind, rfl⟩ := Prod.mk.inj h
  · rfl
  · rw [if_pos (hnamed _ (by simp))] at hkind
    cases hkind
  · rw [if_pos (hnamed _ (by simp))] at hkind
    cases hkind
  · rfl

/-- The identifiers for the operands of a function tell different storage apart exactly if no upvalue
without a name has the number of a slot. -/
theorem storage_told_apart_iff (p : Prototype) :
    (∀ x ∈ p.instructions.flatMap storageOf, ∀ y ∈ p.instructions.flatMap storageOf, ∀ a b w i w' j w'',
      Returns (x.identify p a) w i w' → Returns (y.identify p b) w' j w'' →
        w''.store.equal i j = .ok true → x = y) ↔
    ∀ n, .slot n ∈ p.instructions.flatMap storageOf → .upvalue n ∈ p.instructions.flatMap storageOf →
      (p.debug.upvalueName? n).isSome := by
  refine ⟨fun h n hslot hup => ?_, fun h x hx y hy a b w i w' j w'' hi hj heq => ?_⟩
  · by_contra hname
    rw [Bool.not_eq_true, Option.isSome_eq_false_iff, Option.isNone_iff_eq_none] at hname
    obtain ⟨i, w, hi⟩ := returns_identify p 1 (.slot n) ⟨⟨#[]⟩, ()⟩
    obtain ⟨j, w', hj⟩ := returns_identify p 1 (.upvalue n) w
    cases h _ hslot _ hup 1 1 _ i w j w' hi hj (by rw [identify_equal hi hj]; simp [Storage.label, hname])
  · rw [identify_equal hi hj, Except.ok.injEq, beq_iff_eq] at heq
    refine eq_of_label heq fun n hn => ?_
    obtain ⟨rfl, rfl⟩ | ⟨rfl, rfl⟩ := hn
    exacts [h n hx hy, h n hy hx]

/-- `return` of an upvalue that has no name, with a number in slot 0. -/
def namelessUpvalue : Prototype := ofCode [withAD .kshort 0 5, withAD .uget 1 0, withAD .ret1 1 2]

theorem namelessUpvalue_equals_slot :
    .slot 0 ∈ namelessUpvalue.instructions.flatMap storageOf ∧ .upvalue 0 ∈
    namelessUpvalue.instructions.flatMap storageOf ∧
      ((do
        let i ← Storage.identify namelessUpvalue 1 (.slot 0)
        let j ← Storage.identify namelessUpvalue 2 (.upvalue 0)
        equal i j : Edit Bool).run' ⟨#[]⟩).1 = .ok true := by
  decide

end LuaLift.Proofs
