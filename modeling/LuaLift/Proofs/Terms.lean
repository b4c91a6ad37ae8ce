import Mathlib.Data.List.TakeDrop
import LuaLift.Proofs.Ladder

/-! # Terms of a condition

A condition is kept as a term, operands with the operators after them. `TermDenotes` gives
the value of a term; the regrouping of a chain and the nodes that are built for it keep that
value. The opposite of a test is true where the test is false. -/
namespace LuaLift.Proofs
open Tree Flow

/-! ## The opposite of a test -/

section
variable {V : Type} [LinearOrder V] {s : Store} {w w' : Work Unit}

theorem comparison_opposite {op op' : BinaryOp} {f : V → V → Bool} (hf : comparison op = some f)
    (h : opposite op = .ok op') : ∃ g, comparison op' = some g ∧ ∀ x y, g x y = !f x y := by
  cases op <;> simp only [comparison, Option.some.injEq, reduceCtorEq] at hf <;>
    simp only [opposite, Except.ok.injEq] at h <;> subst hf h <;>
    exact ⟨_, rfl, fun x y => by simp only [← decide_not, not_lt, not_le, Decidable.not_not, ne_eq]⟩

theorem IsOperand.mapLinks {n : Node} (h : IsOperand n) (image : NodeId → NodeId) :
    n.mapLinks image = n := by
  rcases h with ⟨x, rfl⟩ | ⟨k, l, rfl⟩ | ⟨k, rfl⟩ <;> rfl

theorem IsOperand.denotes_eq {s' : Store} {v : Valuation V} {i j : NodeId} {x : V}
    (h : IsOperand (s.node i)) (he : s'.node j = s.node i) (hd : Denotes s v i x) :
    Denotes s' v j x := by
  rcases h with ⟨y, hy⟩ | ⟨k, l, hk⟩ | ⟨k, hk⟩
  · obtain rfl := hd.det (.identifier hy)
    exact .identifier (he.trans hy)
  · obtain rfl := hd.det (.constant hk)
    exact .constant (he.trans hk)
  · obtain rfl := hd.det (.primitive hk)
    exact .primitive (he.trans hk)

/-- The value of the opposite of a test: of the variable alone, if the test is `not` of it. -/
inductive Opposite {V : Type} [LinearOrder V] (s : Store) (v : Valuation V) (c : NodeId) : V → Prop
  | not {a y} : s.node c = .unary .not a → Denotes s v a y → Opposite s v c y
  | other {x} : (∀ a, s.node c ≠ .unary .not a) → Denotes s v c x → Opposite s v c (v.ofBool !v.isTrue x)

theorem Opposite.isTrue {v : Valuation V} {c : NodeId} {x y : V} (h : Opposite s v c y)
    (hx : Denotes s v c x) : v.isTrue y = !v.isTrue x := by
  cases h with
  | not hc ha => rw [hx.det (.not hc ha), v.isTrue_ofBool, Bool.not_not]
  | other _ hc => rw [hx.det hc, v.isTrue_ofBool]

/-- The opposite of a comparison is a copy with the opposite operator. -/
theorem returns_invert_binary {i e l r : NodeId} {op : BinaryOp} (hn : w.store.node i = .binary op l r)
    (h : Returns (invert i) w e w') : ∃ w1 l' r' op', Returns (copyDeep i) w e w1 ∧
      w1.store.node e = .binary op l' r' ∧ opposite op = .ok op' ∧
      w' = { w1 with store := w1.store.setNode e (.binary op' l' r') } := by
  replace h := h.atNode
  rw [hn] at h
  obtain ⟨copy, w1, hcopy, h⟩ := Returns.bind h
  obtain ⟨hg, image, rfl, himage, -⟩ := returns_copyDeep hcopy
  obtain ⟨l', r', hbinary⟩ : ∃ l' r', w1.store.node (image i) = .binary op l' r' := by
    rcases himage i with he | ⟨-, he⟩
    · exact ⟨l, r, by rw [he, hg.node_eq hn nofun]⟩
    · exact ⟨image l, image r, by rw [he (by rw [hn]; nofun), hn]; rfl⟩
  replace h := Returns.atNode h
  rw [hbinary] at h
  dsimp only at h
  cases hop : opposite op with
  | error =>
    rw [hop] at h
    obtain ⟨_, _, ht, _⟩ := Returns.bind h
    exact ht.throw.elim
  | ok op' =>
    rw [hop] at h
    obtain ⟨_, w2, hset, ret⟩ := Returns.bind h
    obtain rfl := returns_setNode hset
    obtain ⟨rfl, rfl⟩ := ret.pure
    exact ⟨w1, l', r', op', hcopy, hbinary, rfl, rfl⟩

theorem returns_invert {i e : NodeId} (hm : s.node .absent = .absent) (ht : IsTest s i)
    (hg : Grows s w.store) (h : Returns (invert i) w e w') :
    Grows w.store w'.store ∧ ∀ v : Valuation V, ∃ y, Denotes w'.store v e y ∧ Opposite s v i y := by
  have rest := h.atNode
  cases ht with
  | plain hi =>
    rw [hg.node_eq hi nofun] at rest
    obtain ⟨hg', he⟩ := returns_add_grows rest
    exact ⟨hg', fun v => ⟨_, .not he (.identifier ((hg.trans hg').node_eq hi nofun)),
      .other (by simp [hi]) (.identifier hi)⟩⟩
  | not hi ha =>
    rw [hg.node_eq hi nofun] at rest
    obtain ⟨rfl, rfl⟩ := rest.pure
    exact ⟨.refl _, fun v => ⟨_, .identifier (hg.node_eq ha nofun), .not hi (.identifier ha)⟩⟩
  | @compare op l r hi hop hl hr =>
    have hi' := hg.node_eq hi nofun
    obtain ⟨w2, l', r', op', hc, hbinary, hopp, rfl⟩ := returns_invert_binary hi' h
    obtain ⟨hg2, image, rfl, himage, hroot⟩ := returns_copyDeep hc
    have hne : i ≠ .absent := by
      rintro rfl
      rw [hm] at hi; cases hi
    have hnew := hroot hne
    have hcopy : w2.store.node (image i) = .binary op (image l) (image r) := by
      rcases himage i with he | ⟨-, he⟩
      · have hin : i.index < w.store.cells.size := inside_of_node (by rw [hi']; nofun)
        rw [he] at hnew; omega
      · rw [he (by rw [hi']; nofun), hi']
        rfl
    cases hcopy.symm.trans hbinary
    -- the operands of the copy are leaves, so none of them is the node that was changed
    have hleaf : ∀ a, IsOperand (w.store.node a) →
        (w2.store.setNode (image i) (.binary op' (image l) (image r))).node (image a) =
          w.store.node a := by
      intro a ha
      have hne : image a ≠ image i := by
        intro he
        rcases himage a with hs | ⟨-, hs⟩
        · have := inside_of_node ha.ne_absent
          rw [← hs, he] at this; omega
        · rw [he, hcopy, ha.mapLinks] at hs
          rcases ha with ⟨x, hx⟩ | ⟨k, l, hx⟩ | ⟨k, hx⟩ <;> rw [hx] at hs <;>
            exact nomatch hs nofun
      rw [node_setNode_of_ne hne]
      rcases himage a with hs | ⟨-, hs⟩
      · rw [hs, hg2.node ha.ne_absent]
      · rw [hs ha.ne_absent, ha.mapLinks]
    refine ⟨hg2.setNode hnew, fun v => ?_⟩
    obtain ⟨f, hf⟩ := comparison_of_isComparison (V := V) hop
    obtain ⟨g, hgf, hneg⟩ := comparison_opposite hf hopp
    obtain ⟨x, hx⟩ := hl.denotes (v := v)
    obtain ⟨y, hy⟩ := hr.denotes (v := v)
    have hl' : IsOperand (w.store.node l) := by rw [hg.node hl.ne_absent]; exact hl
    have hr' : IsOperand (w.store.node r) := by rw [hg.node hr.ne_absent]; exact hr
    have hself := node_setNode_self (s := w2.store) (i := image i)
      (n := .binary op' (image l) (image r)) (inside_of_node (by rw [hcopy]; nofun))
    refine ⟨v.ofBool (g x y), .compare hself hgf (hl'.denotes_eq (hleaf l hl') (hx.grows hg))
      (hr'.denotes_eq (hleaf r hr') (hy.grows hg)), ?_⟩
    have hopposite := Opposite.other (s := s) (v := v) (by simp [hi]) (.compare hi hf hx hy)
    rwa [v.isTrue_ofBool, ← hneg] at hopposite

end

/-! ## Values of terms -/

mutual

/-- The value of a term: operands group to the right. -/
inductive TermDenotes {V : Type} [LinearOrder V] (s : Store) (v : Valuation V) : Flow.Term → V → Prop
  | leaf {e x} : Denotes s v e x → TermDenotes s v (.leaf e) x
  | chain {links last z x} : TermDenotes s v last z → LinksDenote s v links z x →
      TermDenotes s v (.chain links last) x

/-- The value of operands before a last one with value `z`. -/
inductive LinksDenote {V : Type} [LinearOrder V] (s : Store) (v : Valuation V) :
    List (Flow.Term × BinaryOp) → V → V → Prop
  | nil {z} : LinksDenote s v [] z z
  | cons {t op k a rest z x} : stopsOn op = some k → TermDenotes s v t a → LinksDenote s v rest z x →
      LinksDenote s v ((t, op) :: rest) z (if v.isTrue a = k then a else x)

end

section
variable {V : Type} [LinearOrder V] {s s' : Store} {v : Valuation V}

mutual

theorem TermDenotes.grows (hg : Grows s s') :
    ∀ {t : Flow.Term} {x : V}, TermDenotes s v t x → TermDenotes s' v t x
  | _, _, .leaf h => .leaf (h.grows hg)
  | _, _, .chain hl h => .chain (TermDenotes.grows hg hl) (LinksDenote.grows hg h)

theorem LinksDenote.grows (hg : Grows s s') : ∀ {links : List (Flow.Term × BinaryOp)} {z x : V},
    LinksDenote s v links z x → LinksDenote s' v links z x
  | _, _, _, .nil => .nil
  | _, _, _, .cons hk h hr => .cons hk (TermDenotes.grows hg h) (LinksDenote.grows hg hr)

end

theorem LinksDenote.split {front back : List (Flow.Term × BinaryOp)} {z x : V}
    (h : LinksDenote s v (front ++ back) z x) :
    ∃ y, LinksDenote s v back z y ∧ LinksDenote s v front y x := by
  induction front generalizing x with
  | nil => exact ⟨x, h, .nil⟩
  | cons p front ih =>
    cases h with
    | cons hk ht hr =>
      obtain ⟨y, hy, hf⟩ := ih hr
      exact ⟨y, hy, .cons hk ht hf⟩

theorem TermDenotes.explicit {links : List (Flow.Term × BinaryOp)} {last : NodeId} {z x : V}
    (hz : Denotes s v last z) (h : LinksDenote s v links z x) :
    TermDenotes s v (Flow.explicit links last) x := by
  unfold Flow.explicit
  rw [List.span_eq_takeWhile_dropWhile]
  dsimp only
  split
  · exact .chain (.leaf hz) h
  · rw [← List.takeWhile_append_dropWhile (p := fun l => l.2 == BinaryOp.and) (l := links)] at h
    obtain ⟨y, hback, hfront⟩ := h.split
    exact .chain (.chain (.leaf hz) hback) hfront

mutual

/-- The expression that is assembled for a term has its value. -/
theorem TermDenotes.assemble : ∀ {t : Flow.Term} {x : V}, TermDenotes s v t x →
    ∀ {w w' : Work Unit} {e : NodeId}, Grows s w.store → Returns (Flow.assemble t) w e w' →
      Grows w.store w'.store ∧ Denotes w'.store v e x
  | _, _, .leaf hd, w, w', e, hg, h => by
    unfold Flow.assemble at h
    obtain ⟨rfl, rfl⟩ := h.pure
    exact ⟨.refl _, hd.grows hg⟩
  | _, _, .chain hl hlinks, w, w', e, hg, h => by
    unfold Flow.assemble at h
    split at h
    · obtain ⟨_, _, ht, _⟩ := h.bind
      exact ht.throw.elim
    · obtain ⟨e1, w2, h1, h2⟩ := Returns.bind h
      obtain ⟨hg1, hz⟩ := TermDenotes.assemble hl hg h1
      obtain ⟨hg2, he⟩ := LinksDenote.assemble hlinks (hg.trans hg1) hz h2
      exact ⟨hg1.trans hg2, he⟩

theorem LinksDenote.assemble : ∀ {links : List (Flow.Term × BinaryOp)} {z x : V},
    LinksDenote s v links z x → ∀ {w w' : Work Unit} {last e : NodeId}, Grows s w.store →
      Denotes w.store v last z → Returns (assembleLinks links last) w e w' →
      Grows w.store w'.store ∧ Denotes w'.store v e x
  | _, _, _, .nil, w, w', last, e, _, hz, h => by
    unfold assembleLinks at h
    obtain ⟨rfl, rfl⟩ := h.pure
    exact ⟨.refl _, hz⟩
  | _, _, _, .cons hk ht hr, w, w', last, e, hg, hz, h => by
    unfold assembleLinks at h
    obtain ⟨right, w1, h1, h⟩ := h.bind
    obtain ⟨hg1, hx⟩ := LinksDenote.assemble hr hg hz h1
    obtain ⟨left, w2, h2, h⟩ := Returns.bind h
    obtain ⟨hg2, hl⟩ := TermDenotes.assemble ht (hg.trans hg1) h2
    obtain ⟨hg3, he⟩ := returns_add_grows h
    exact ⟨(hg1.trans hg2).trans hg3,
      Denotes.logical he hk (hl.grows hg3) ((hx.grows hg2).grows hg3)⟩

end

end

end LuaLift.Proofs
