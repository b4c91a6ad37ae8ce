import LuaLift.Proofs.Sharing
import LuaLift.Proofs.Terms

/-! # The opposite of a condition

`Evaluates` gives the value of any expression. `not` and comparisons, whose operands are linearly
ordered, are what they are in the language; what other nodes make of the values of their parts is left
to the semantics. An inverted condition is true where the condition is false, unless it is `#x` or
`-x`, of which only `x` is left. -/
namespace LuaLift.Proofs
open Tree Flow

variable {V : Type}

/-- A node without its links. -/
def bare (n : Node) : Node := n.mapLinks fun _ => .absent

theorem bare_mapLinks (f : NodeId → NodeId) (n : Node) : bare (n.mapLinks f) = bare n := by
  cases n <;> simp [bare, Node.mapLinks, Node.rebuild, Node.fields, Node.items, Function.comp_def]

theorem children_mapLinks (f : NodeId → NodeId) (n : Node) : (n.mapLinks f).children = n.children.map f := by
  cases n <;> simp [Node.mapLinks, Node.rebuild, Node.fields, Node.items, Node.children]

theorem mapLinks_ne_absent {n : Node} (f : NodeId → NodeId) (h : n ≠ .absent) : n.mapLinks f ≠ .absent := by
  cases n with
  | absent => exact absurd rfl h
  | _ => exact Node.noConfusion

theorem getElem_mem_zip {α β : Type} {xs : List α} {ys : List β} {k : Nat} (hx : k < xs.length)
    (hy : k < ys.length) : (xs[k], ys[k]) ∈ xs.zip ys :=
  List.mem_iff_getElem.mpr ⟨k, by simp [hx, hy], by simp⟩

/-- Values, which of them count as true, and what a node makes of the values of its parts. A part that
is not evaluated or fails has none. -/
structure Semantics (V : Type) where
  isTrue : V → Bool
  ofBool : Bool → V
  isTrue_ofBool : ∀ b, isTrue (ofBool b) = b
  apply : Node → List (Option V) → Option V

variable [LinearOrder V] {σ : Semantics V} {s s' : Store} {c i j : NodeId} {n : Node} {r r' : Option V}

def Semantics.result (σ : Semantics V) (n : Node) (rs : List (Option V)) : Option V :=
  match n, rs with
  | .unary .not _, [x] => x.map fun x => σ.ofBool !σ.isTrue x
  | .binary op _ _, [x, y] =>
    match comparison op with
    | some f => x.bind fun x => y.map fun y => σ.ofBool (f x y)
    | none => σ.apply n rs
  | _, _ => σ.apply n rs

/-- The value of a node, all of whose parts are there. -/
inductive Evaluates (σ : Semantics V) (s : Store) : NodeId → Option V → Prop
  | node {i : NodeId} (rs : List (Option V)) : s.node i ≠ .absent → rs.length = (s.node i).children.length →
      (∀ p ∈ (s.node i).children.zip rs, Evaluates σ s p.1 p.2) →
      Evaluates σ s i (σ.result (bare (s.node i)) rs)

theorem Evaluates.ne_absent (h : Evaluates σ s i r) : s.node i ≠ .absent := by
  cases h with
  | node _ hn => exact hn

theorem Evaluates.grows (h : Evaluates σ s i r) (hg : Grows s s') : Evaluates σ s' i r := by
  induction h with
  | node rs hn hlen _ ih =>
    have he := hg.node hn
    rw [← he] at hn hlen ih ⊢
    exact .node rs hn hlen ih

theorem Evaluates.det (h : Evaluates σ s i r) (h' : Evaluates σ s i r') : r = r' := by
  induction h generalizing r' with
  | @node i rs hn hlen _ ih =>
    cases h' with
    | @node _ rs' _ hlen' hparts =>
      congr 1
      refine List.ext_getElem (hlen.trans hlen'.symm) fun k hk hk' => ?_
      exact ih _ (getElem_mem_zip (hlen ▸ hk) hk) (hparts _ (getElem_mem_zip (hlen' ▸ hk') hk'))

theorem Evaluates.not_inTree (h : Evaluates σ s i r) (hc : c ∈ (s.node i).children) : ¬ InTree s c i := by
  induction h generalizing c with
  | @node i rs _ hlen _ ih =>
    intro hi
    obtain ⟨k, hk, hck⟩ := List.mem_iff_getElem.mp hc
    have hpart := getElem_mem_zip hk (hlen.symm ▸ hk : k < rs.length)
    rw [hck] at hpart
    rcases hi.top with rfl | ⟨c', hc', hi'⟩
    · exact ih _ hpart hc .root
    · exact ih _ hpart hc' (hi'.child hc)

/-- A change of a node that is no part of another leaves the value of that one alone. -/
theorem Evaluates.setNode (h : Evaluates σ s i r) (hj : ¬ InTree s i j) :
    Evaluates σ (s.setNode j n) i r := by
  induction h with
  | @node i rs hn hlen _ ih =>
    have he : (s.setNode j n).node i = s.node i := node_setNode_of_ne fun hij => hj (hij ▸ .root)
    rw [← he] at hn hlen ⊢
    refine .node rs hn hlen fun p hp => ?_
    rw [he] at hp
    exact ih p hp fun hpj => hj ((InTree.root.child (List.of_mem_zip hp).1).trans hpj)

theorem Evaluates.copy {image : NodeId → NodeId} (h : Evaluates σ s i r) (hg : Grows s s')
    (himage : ∀ i, image i = i ∨ s.cells.size ≤ (image i).index ∧
      (s.node i ≠ .absent → s'.node (image i) = (s.node i).mapLinks image)) : Evaluates σ s' (image i) r := by
  induction h with
  | @node i rs hn hlen hparts ih =>
    rcases himage i with he | ⟨-, he⟩
    · rw [he]
      exact (Evaluates.node rs hn hlen hparts).grows hg
    · have he := he hn
      rw [← bare_mapLinks image, ← he]
      refine .node rs ?_ ?_ ?_
      · rw [he]
        exact mapLinks_ne_absent image hn
      · rw [hlen, he, children_mapLinks, List.length_map]
      · rw [he, children_mapLinks, List.zip_map_left]
        rintro p hp
        obtain ⟨q, hq, rfl⟩ := List.mem_map.mp hp
        exact ih q hq

theorem evaluates_binary {op : BinaryOp} {left right : NodeId} (hi : s.node i = .binary op left right) :
    Evaluates σ s i r ↔ ∃ x y, Evaluates σ s left x ∧ Evaluates σ s right y ∧
      r = σ.result (.binary op .absent .absent) [x, y] := by
  constructor
  · rintro @⟨_, rs, -, hlen, hparts⟩
    rw [hi] at hlen hparts ⊢
    obtain ⟨x, y, rfl⟩ := List.length_eq_two.mp hlen
    exact ⟨x, y, hparts (left, x) (by simp [Node.children]), hparts (right, y) (by simp [Node.children]), rfl⟩
  · rintro ⟨x, y, hl, hr, rfl⟩
    have h := Evaluates.node (σ := σ) (s := s) (i := i) [x, y]
    rw [hi] at h
    exact h (by simp) rfl (by simpa [Node.children] using ⟨hl, hr⟩)

theorem evaluates_unary {op : UnaryOp} {operand : NodeId} (hi : s.node i = .unary op operand) :
    Evaluates σ s i r ↔ ∃ x, Evaluates σ s operand x ∧ r = σ.result (.unary op .absent) [x] := by
  constructor
  · rintro @⟨_, rs, -, hlen, hparts⟩
    rw [hi] at hlen hparts ⊢
    obtain ⟨x, rfl⟩ := List.length_eq_one_iff.mp hlen
    exact ⟨x, hparts (operand, x) (by simp [Node.children]), rfl⟩
  · rintro ⟨x, hx, rfl⟩
    have h := Evaluates.node (σ := σ) (s := s) (i := i) [x]
    rw [hi] at h
    exact h (by simp) rfl (by simpa [Node.children] using hx)

/-- A value is true where another is false, and there is none where there is none of the other. -/
def Semantics.Opposed (σ : Semantics V) (r r' : Option V) : Prop :=
  r'.map σ.isTrue = r.map fun x => !σ.isTrue x

theorem opposed_opposite {op op' : BinaryOp} {x y : Option V} (h : opposite op = .ok op') :
    σ.Opposed (σ.result (.binary op .absent .absent) [x, y])
      (σ.result (.binary op' .absent .absent) [x, y]) := by
  have hop : isComparison op = true := by
    unfold opposite at h
    split at h <;> first | rfl | (split at h <;> cases h)
  obtain ⟨f, hf⟩ := comparison_of_isComparison (V := V) hop
  obtain ⟨g, hg, hneg⟩ := comparison_opposite hf h
  cases x <;> cases y <;> simp [Semantics.Opposed, Semantics.result, hf, hg, hneg, σ.isTrue_ofBool]

theorem Evaluates.invert_binary {w w' : Work Unit} {e left right : NodeId} {op : BinaryOp}
    (hi : Evaluates σ w.store i r) (hn : w.store.node i = .binary op left right)
    (h : Returns (invert i) w e w') : ∃ r', Evaluates σ w'.store e r' ∧ σ.Opposed r r' := by
  obtain ⟨w1, left', right', op', hcopy, hbinary, hop, rfl⟩ := returns_invert_binary hn h
  obtain ⟨hg, image, rfl, himage, -⟩ := returns_copyDeep hcopy
  have hvalue := hi.copy hg himage
  obtain ⟨x, y, hl, hr, rfl⟩ := (evaluates_binary hbinary).mp hvalue
  have hself := node_setNode_self (n := .binary op' left' right') (inside_of_node hvalue.ne_absent)
  have hpart {c : NodeId} (hc : c = left' ∨ c = right') : ¬ InTree w1.store c (image i) :=
    hvalue.not_inTree (by rw [hbinary]; simpa [Node.children] using hc)
  have hl' := hl.setNode (n := .binary op' left' right') (hpart (.inl rfl))
  have hr' := hr.setNode (n := .binary op' left' right') (hpart (.inr rfl))
  exact ⟨_, (evaluates_binary hself).mpr ⟨x, y, hl', hr', rfl⟩, opposed_opposite hop⟩

/-- An inverted condition has one value. It is true where that of the condition is false, and there is
none where there is none of the condition, unless a unary operator other than `not` was taken off. -/
theorem inverted_condition_is_opposite {w w' : Work Unit} {e : NodeId} (hi : Evaluates σ w.store i r)
    (h : Returns (invert i) w e w') : ∃ r', (∀ x, Evaluates σ w'.store e x ↔ x = r') ∧
      ((∀ op a, w.store.node i = .unary op a → op = .not) → σ.Opposed r r') ∧
      ∀ op a, w.store.node i = .unary op a → e = a ∧ w' = w := by
  suffices hsome : ∃ r', Evaluates σ w'.store e r' ∧
      ((∀ op a, w.store.node i = .unary op a → op = .not) → σ.Opposed r r') ∧
      ∀ op a, w.store.node i = .unary op a → e = a ∧ w' = w by
    obtain ⟨r', he, hr⟩ := hsome
    exact ⟨r', fun x => ⟨fun hx => hx.det he, fun hx => hx ▸ he⟩, hr⟩
  have hinvert := h
  replace h := h.atNode
  split at h
  · rename_i op operand hn
    obtain ⟨rfl, rfl⟩ := h.pure
    obtain ⟨x, hx, rfl⟩ := (evaluates_unary hn).mp hi
    refine ⟨x, hx, fun hnot => ?_, fun _ _ hn' => ?_⟩
    · obtain rfl := hnot _ _ hn
      cases x <;> simp [Semantics.Opposed, Semantics.result, σ.isTrue_ofBool]
    · cases hn.symm.trans hn'
      exact ⟨rfl, rfl⟩
  · rename_i op left right hn
    obtain ⟨r', he, hr⟩ := hi.invert_binary hn hinvert
    exact ⟨r', he, fun _ => hr, fun _ _ hn' => by rw [hn] at hn'; cases hn'⟩
  · rename_i hunary hbinary
    obtain ⟨hg, he⟩ := returns_add_grows h
    refine ⟨_, (evaluates_unary he).mpr ⟨r, hi.grows hg, rfl⟩, fun _ => ?_,
      fun op a hn => absurd hn (hunary op a)⟩
    cases r <;> simp [Semantics.Opposed, Semantics.result, σ.isTrue_ofBool]

/-- Two slots, and a condition on them. -/
def conditionOnSlots (condition : Node) : Store :=
  numbered [.identifier { kind := .slot, slot := 0 }, .identifier { kind := .slot, slot := 1 }, condition]

/-- Slots hold their numbers, of which those above zero are true. -/
def slotNumbers : Semantics Int where
  isTrue x := decide (0 < x)
  ofBool b := if b then 1 else 0
  isTrue_ofBool b := by cases b <;> rfl
  apply
    | .identifier x, _ => some x.slot
    | .unary _ _, [x] => x.map fun x => x + 1
    | _, _ => none

theorem slotNumbers_slots (condition : Node) :
    Evaluates slotNumbers (conditionOnSlots condition) ⟨1⟩ (some 0) ∧
    Evaluates slotNumbers (conditionOnSlots condition) ⟨2⟩ (some 1) :=
  ⟨.node (i := ⟨1⟩) [] nofun rfl nofun, .node (i := ⟨2⟩) [] nofun rfl nofun⟩

theorem inverted_less : ∃ e w', Returns (invert ⟨3⟩) ⟨conditionOnSlots (.binary .less ⟨1⟩ ⟨2⟩), ()⟩ e w' ∧
    ∃ r', Evaluates slotNumbers w'.store e r' ∧ r'.map slotNumbers.isTrue = some false := by
  obtain ⟨hzero, hone⟩ := slotNumbers_slots (.binary .less ⟨1⟩ ⟨2⟩)
  have hi := (evaluates_binary (i := ⟨3⟩) rfl).mpr ⟨_, _, hzero, hone, rfl⟩
  have hinvert : Returns (invert ⟨3⟩) ⟨conditionOnSlots (.binary .less ⟨1⟩ ⟨2⟩), ()⟩ _ _ := rfl
  obtain ⟨r', he, hr, -⟩ := inverted_condition_is_opposite hi hinvert
  exact ⟨_, _, hinvert, r', (he r').mpr rfl, hr nofun⟩

/-- Of `#x` only `x` is left, which may be as true as `#x` is. -/
theorem inverted_length_is_not_opposite : ∃ e w',
    Returns (invert ⟨3⟩) ⟨conditionOnSlots (.unary .length ⟨2⟩), ()⟩ e w' ∧
      Evaluates slotNumbers (conditionOnSlots (.unary .length ⟨2⟩)) ⟨3⟩ (some 2) ∧
      Evaluates slotNumbers w'.store e (some 1) ∧ ¬ slotNumbers.Opposed (some 2) (some 1) := by
  obtain ⟨-, hone⟩ := slotNumbers_slots (.unary .length ⟨2⟩)
  exact ⟨_, _, rfl, (evaluates_unary rfl).mpr ⟨_, hone, rfl⟩, hone, nofun⟩

end LuaLift.Proofs
