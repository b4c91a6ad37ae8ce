import Mathlib.Data.List.Flatten
import Mathlib.Data.List.Nodup
import LuaLift.Tree.Validity

/-! # Trees in a store

The parts of a node and the parts of these make a tree (`InTree`). In a tree that is not shared
no node stands in two places. A check of a tree says of each of its nodes that its parts are of
the right kinds. -/
namespace LuaLift.Proofs
open Tree

/-- The nodes of a tree to a given depth, each as often as it stands in the tree. -/
def occurrences (s : Store) : Nat → NodeId → List NodeId
  | 0, _ => []
  | depth + 1, i => i :: (s.node i).children.flatMap (occurrences s depth)

variable {s t : Store} {root i j : NodeId} {k : Nat}

theorem mem_occurrences_self (s : Store) (k : Nat) (i : NodeId) : i ∈ occurrences s (k + 1) i :=
  List.mem_cons_self

variable {α β : Type} {warped : Bool} {x : Except Fault α} {m : Node} {a b c : NodeId} {r : PartRule}
  {f : α → Except Fault β}

theorem mem_occurrences_child {x : NodeId} (hc : c ∈ (s.node i).children) (hx : x ∈ occurrences s k c) :
    x ∈ occurrences s (k + 1) i :=
  List.mem_cons_of_mem _ (List.mem_flatMap.mpr ⟨c, hc, hx⟩)

/-- A tree in which no node stands in two places. -/
def Unshared (s : Store) (i : NodeId) : Prop := ∀ d, (occurrences s d i).Nodup

theorem Unshared.child (h : Unshared t j) (hc : c ∈ (t.node j).children) : Unshared t c := by
  intro d
  have hall := (List.nodup_cons.mp (h (d + 1))).2
  exact (List.nodup_flatMap.mp hall).1 c hc

theorem occurrences_one (s : Store) : occurrences s 1 = fun i => [i] := by
  funext i
  simp [occurrences, List.flatMap_eq_nil_iff]

theorem occurrences_two (s : Store) : occurrences s 2 = fun i => i :: (s.node i).children := by
  funext i
  rw [occurrences, occurrences_one, List.flatMap_singleton']

theorem Unshared.children (h : Unshared t j) : (t.node j).children.Nodup := by
  have hall := h 2
  rw [occurrences_two] at hall
  exact (List.nodup_cons.mp hall).2

theorem Unshared.grandchildren (h : Unshared t j) (hj : (t.node j).children = [a, b]) :
    ((t.node a).children ++ (t.node b).children).Nodup := by
  have hall := (List.nodup_cons.mp (h 3)).2
  rw [hj, occurrences_two] at hall
  have hsub : ((t.node a).children ++ (t.node b).children).Sublist
      ([a, b].flatMap fun i => i :: (t.node i).children) := by
    simp only [List.flatMap_cons, List.flatMap_nil, List.append_nil]
    exact (List.sublist_cons_self ..).append (List.sublist_cons_self ..)
  exact hall.sublist hsub

/-! ## Reaching a node -/

/-- A node of the tree below another one. -/
inductive InTree (s : Store) (root : NodeId) : NodeId → Prop
  | root : InTree s root root
  | child {i c : NodeId} : InTree s root i → c ∈ (s.node i).children → InTree s root c

theorem InTree.trans (h : InTree s root i) (h' : InTree s i j) : InTree s root j := by
  induction h' with
  | root => exact h
  | child _ hc ih => exact ih.child hc

theorem InTree.top (h : InTree s root i) :
    i = root ∨ ∃ c ∈ (s.node root).children, InTree s c i := by
  induction h with
  | root => exact .inl rfl
  | @child i c _ hc ih =>
    cases ih with
    | inl hi =>
      subst hi
      exact .inr ⟨c, hc, .root⟩
    | inr hi =>
      obtain ⟨b, hb, hi⟩ := hi
      exact .inr ⟨b, hb, hi.child hc⟩

/-! ## Checked trees -/

theorem bind_eq_ok {b : β} (h : (x >>= f) = .ok b) : ∃ a, x = .ok a ∧ f a = .ok b := by
  cases x with
  | error e => cases h
  | ok a => exact ⟨a, rfl, h⟩

theorem demand_eq_ok {holds : Bool} {rule : String} (h : demand holds rule = .ok ()) : holds = true := by
  cases holds with
  | true => rfl
  | false => cases h

theorem forM_eq_ok {xs : List NodeId} {check : NodeId → Except Fault Unit} (h : xs.forM check = .ok ()) :
    ∀ x ∈ xs, check x = .ok () := by
  induction xs with
  | nil => simp
  | cons x xs ih =>
    obtain ⟨u, hx, hxs⟩ := bind_eq_ok h
    intro y hy
    cases List.mem_cons.mp hy with
    | inl hy => exact hy ▸ hx
    | inr hy => exact ih hxs y hy

theorem checkPart_ok {rule : Option PartRule} (h : checkPart s warped (k + 1) rule i = .ok ()) :
    (∀ r, rule = some r → r.allows i (s.node i) = true) ∧ s.node i ≠ .absent ∧
      ∃ r, partRule s warped (s.node i) = .ok r ∧
        ∀ c ∈ (s.node i).children, checkPart s warped k (some r) c = .ok () := by
  have hrest : ∀ {x : Except Fault Unit}, (do
      x
      demand (s.node i != Node.absent) "a part of a node is missing"
      let r ← partRule s warped (s.node i)
      (s.node i).children.forM (checkPart s warped k (some r))) = .ok () → s.node i ≠ .absent ∧
        ∃ r, partRule s warped (s.node i) = .ok r ∧
          ∀ c ∈ (s.node i).children, checkPart s warped k (some r) c = .ok () := by
    intro x hx
    obtain ⟨_, -, h⟩ := bind_eq_ok hx
    obtain ⟨_, hpresent, h⟩ := bind_eq_ok h
    obtain ⟨r, hr, h⟩ := bind_eq_ok h
    exact ⟨by simpa using demand_eq_ok hpresent, r, hr, forM_eq_ok h⟩
  cases rule with
  | none => exact ⟨by simp, hrest (x := pure ()) h⟩
  | some r =>
    refine ⟨?_, hrest h⟩
    obtain ⟨_, hallows, -⟩ := bind_eq_ok h
    rintro _ ⟨⟩
    exact demand_eq_ok hallows

/-- What a node of a valid tree asks of its parts. -/
def ruleFor (warped : Bool) : Node → PartRule
  | .function a ss _ => ⟨[(a, Node.isList .identifiers), (ss, Node.isList .statements)], some isBlockNode⟩
  | .table .. => ⟨[], some (Node.isList .records)⟩
  | .arrayRecord _ | .tableRecord .. | .element .. | .binary .. | .unary .. | .list .expressions _ =>
    ⟨[], some Node.isExpression⟩
  | .assignment _ es ds => ⟨[(ds, Node.isList .targets), (es, Node.isList .expressions)], none⟩
  | .list .statements _ => ⟨[], some (if warped then isBlockNode else Node.isStatement)⟩
  | .list .identifiers _ => ⟨[], some fun n => isIdentifierNode n || n == .vararg⟩
  | .list .records _ => ⟨[], some isRecordNode⟩
  | .list .targets _ => ⟨[], some Node.isVariable⟩
  | .call f as => ⟨[(f, Node.isVariable), (as, Node.isList .expressions)], none⟩
  | .ifElse c t _ e =>
    ⟨[(c, Node.isExpression), (t, Node.isList .statements), (e, Node.isList .statements)],
      some isElseIfNode⟩
  | .elseIf c t => ⟨[(c, Node.isExpression), (t, Node.isList .statements)], none⟩
  | .block b => ⟨[(b.exit, Node.isExit)], some Node.isStatement⟩
  | .test c _ _ _ => ⟨[(c, Node.isExpression)], none⟩
  | .iterate vs cs _ _ =>
    ⟨[(vs, Node.isList .targets), (cs, Node.isList .expressions)], some isBlockNode⟩
  | .count i cs _ _ => ⟨[(i, isIdentifierNode), (cs, Node.isList .expressions)], some isBlockNode⟩
  | .ret _ => ⟨[], some (Node.isList .expressions)⟩
  | .whileLoop c ss | .repeatLoop c ss =>
    ⟨[(c, Node.isExpression), (ss, Node.isList .statements)], none⟩
  | .numericFor v es ss =>
    ⟨[(es, Node.isList .expressions), (ss, Node.isList .statements), (v, Node.isVariable)], none⟩
  | .iteratorFor es is ss =>
    ⟨[(es, Node.isList .expressions), (is, Node.isList .targets), (ss, Node.isList .statements)], none⟩
  | _ => {}

theorem bind_ok_right {b : β} (h : (x >>= f) = .ok b) : ∃ a, f a = .ok b := by
  obtain ⟨a, -, h⟩ := bind_eq_ok h
  exact ⟨a, h⟩

theorem partRule_eq_ok {n : Node} (h : partRule s warped n = .ok r) : r = ruleFor warped n := by
  unfold partRule at h
  split at h
  all_goals (repeat (obtain ⟨_, h⟩ := bind_ok_right h))
  all_goals first | (cases h; rfl) | skip
  · split at h <;> first | (cases h; rfl) | cases h | skip
    split at h <;> first | (cases h; rfl) | cases h
  · split at h
    · obtain ⟨_, h⟩ := bind_ok_right h
      cases h; rfl
    · cases h

/-- A part passes the test that names it, or else the test for all other parts. -/
theorem allows_cases (h : r.allows c m = true) :
    (∃ p ∈ r.special, p.1 = c ∧ p.2 m = true) ∨
      (∀ p ∈ r.special, p.1 ≠ c) ∧ ∃ f, r.general = some f ∧ f m = true := by
  unfold PartRule.allows at h
  split at h
  · rename_i a fits hfind
    have hmem := List.mem_of_find?_eq_some hfind
    have hkey := List.find?_some hfind
    exact .inl ⟨(a, fits), List.mem_reverse.mp hmem, by simpa using hkey, h⟩
  · rename_i hfind
    refine .inr ⟨?_, ?_⟩
    · intro p hp hkey
      have := List.find?_eq_none.mp hfind p (List.mem_reverse.mpr hp)
      simp [hkey] at this
    · split at h
      · exact ⟨_, ‹_›, h⟩
      · cases h

theorem allows_second {f g : Node → Bool} {general : Option (Node → Bool)} :
    (PartRule.mk [(a, f), (b, g)] general).allows b m = g m := by
  simp [PartRule.allows]

theorem isList_eq {n : Node} {kind : ListKind} (h : n.isList kind = true) : ∃ xs, n = .list kind xs := by
  cases n with
  | list k xs => exact ⟨xs, by rw [show k = kind by simpa [Node.isList] using h]⟩
  | _ => cases h

theorem InTree.check {rule : Option PartRule} (h : InTree s root i)
    (hroot : checkPart s warped k rule root = .ok ()) :
    ∃ d < k, ∃ r, checkPart s warped (d + 1) r i = .ok () := by
  induction h with
  | root =>
    cases k with
    | zero => cases hroot
    | succ k => exact ⟨k, Nat.lt_succ_self k, rule, hroot⟩
  | child _ hc ih =>
    obtain ⟨d, hd, r, hi⟩ := ih
    obtain ⟨-, -, r', -, hparts⟩ := checkPart_ok hi
    cases d with
    | zero => cases hparts _ hc
    | succ d => exact ⟨d, Nat.lt_of_succ_lt hd, some r', hparts _ hc⟩

theorem InTree.allows (h : InTree s root i) (hroot : s.validate warped root = .ok ()) :
    s.node i ≠ .absent ∧
      ∀ c ∈ (s.node i).children, (ruleFor warped (s.node i)).allows c (s.node c) = true := by
  obtain ⟨d, -, r, hi⟩ := h.check hroot
  obtain ⟨-, hpresent, r', hr', hparts⟩ := checkPart_ok hi
  refine ⟨hpresent, fun c hc => ?_⟩
  rw [← partRule_eq_ok hr']
  cases d with
  | zero => cases hparts c hc
  | succ d => exact (checkPart_ok (hparts c hc)).1 r' rfl

end LuaLift.Proofs
