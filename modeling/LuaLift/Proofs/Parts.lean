import LuaLift.Proofs.Succeeding
import LuaLift.Lift.Statement
import LuaLift.Tree.Validity

/-! # Trees of expressions and statements

`Plain` trees are what the instructions of a function are made into, as long as they hold no
function: every node has the parts that its kind asks for, and no node has an address but for
identifiers. A step that `Makes` a node adds a plain tree and leaves alone what was there. -/
namespace LuaLift.Proofs
open Tree Pass

/-- Nodes that are no part of the frame of blocks, exits and functions. -/
def isInner : Node → Bool
  | .table .. | .arrayRecord _ | .tableRecord .. | .assignment .. | .binary .. | .unary ..
  | .identifier _ | .multres | .element .. | .vararg | .call .. | .constant .. | .primitive _ => true
  | .list kind _ => kind != .statements
  | _ => false

/-- A node without an address; that of an identifier is not looked at. -/
def Quiet (s : Store) (i : NodeId) : Prop :=
  (s.cell i).address = none ∨ isIdentifierNode (s.node i) = true

/-- A node asks nothing of its parts that they do not have. -/
def PartsFit (s : Store) (n : Node) : Prop :=
  ∃ r, partRule s true n = .ok r ∧ ∀ c ∈ n.children, r.allows c (s.node c) = true

/-- A tree of inner nodes that is at most `d` deep. -/
def Plain (s : Store) : Nat → NodeId → Prop
  | 0, _ => False
  | d + 1, i => isInner (s.node i) = true ∧ PartsFit s (s.node i) ∧
      ∀ c ∈ (s.node i).children, Quiet s c ∧ Plain s d c

/-- A plain tree whose root is of a certain kind. No chain of parts is longer than the store. -/
structure Has (s : Store) (fits : Node → Bool) (i : NodeId) : Prop where
  plain : Plain s s.cells.size i
  quiet : Quiet s i
  fits : fits (s.node i) = true

variable {s s' : Store} {fits fits' : Node → Bool} {i j : NodeId} {n : Node} {d d' : Nat}

/-! ## Stores that keep their inner nodes -/

/-- The inner nodes of `s` are unchanged in `s'`. -/
def Keeps (s s' : Store) : Prop := ∀ i, isInner (s.node i) = true → s'.cell i = s.cell i

theorem Keeps.node (h : Keeps s s') (hi : isInner (s.node i) = true) : s'.node i = s.node i := by
  simp only [Store.node, h i hi]

theorem Keeps.trans {s'' : Store} (h : Keeps s s') (h' : Keeps s' s'') : Keeps s s'' := fun i hi =>
  (h' i (by rw [h.node hi]; exact hi)).trans (h i hi)

theorem Grows.keeps (h : Grows s s') : Keeps s s' := by
  intro i hi
  refine h.cell i (inside_of_node ?_)
  intro ha
  simp [ha, isInner] at hi

/-- What a node asks depends on the nodes of its parts only, unless it ends an iterator loop. -/
theorem partRule_congr (hn : isInner n = true ∨ ∃ a, n = .ret a)
    (h : ∀ c ∈ n.children, s'.node c = s.node c) : partRule s' true n = partRule s true n := by
  cases n with
  | assignment kind es ds =>
    have hds : s'.node ds = s.node ds := h ds (by simp [Node.children])
    simp only [partRule, hds]
  | list kind xs =>
    have hxs : xs.map s'.node = xs.map s.node := List.map_congr_left h
    cases kind <;> simp [partRule, hxs]
  | _ => first | rfl | simp [isInner] at hn

theorem PartsFit.congr (hn : isInner n = true ∨ ∃ a, n = .ret a) (hs : PartsFit s n)
    (h : ∀ c ∈ n.children, s'.node c = s.node c) : PartsFit s' n := by
  obtain ⟨r, hr, hc⟩ := hs
  refine ⟨r, (partRule_congr hn h).trans hr, fun c hm => ?_⟩
  rw [h c hm]
  exact hc c hm

theorem Plain.inner (h : Plain s d i) : isInner (s.node i) = true := by
  cases d with
  | zero => exact h.elim
  | succ d => exact h.1

theorem Plain.keep (hk : Keeps s s') (h : Plain s d i) (hd : d ≤ d') : Plain s' d' i := by
  induction d generalizing i d' with
  | zero => exact h.elim
  | succ d ih =>
    obtain ⟨hi, hs, hc⟩ := h
    obtain ⟨d', rfl⟩ : ∃ e, d' = e + 1 := ⟨d' - 1, by omega⟩
    have hnode := hk.node hi
    refine ⟨by rw [hnode]; exact hi, ?_, fun c hm => ?_⟩
    · rw [hnode]
      exact hs.congr (.inl hi) fun c hm => hk.node (hc c hm).2.inner
    · rw [hnode] at hm
      refine ⟨?_, ih (hc c hm).2 (by omega)⟩
      rw [Quiet, Store.node, hk c (hc c hm).2.inner]
      exact (hc c hm).1

theorem Has.keep (hk : Keeps s s') (hsize : s.cells.size ≤ s'.cells.size) (h : Has s fits i) :
    Has s' fits i := by
  have hi := h.plain.inner
  refine ⟨h.plain.keep hk hsize, ?_, by rw [hk.node hi]; exact h.fits⟩
  rw [Quiet, Store.node, hk i hi]
  exact h.quiet

theorem Has.grow (h : Has s fits i) (hg : Grows s s') : Has s' fits i := h.keep hg.keeps hg.size

theorem Has.weaken (h : Has s fits i) (hf : ∀ n, fits n = true → fits' n = true) : Has s fits' i :=
  ⟨h.plain, h.quiet, hf _ h.fits⟩

theorem isExpression_of_isVariable (n : Node) (h : n.isVariable = true) : n.isExpression = true := by
  cases n <;> first | rfl | cases h

theorem isVariable_of_isIdentifier (n : Node) (h : isIdentifierNode n = true) : n.isVariable = true := by
  cases n <;> first | rfl | cases h

theorem Has.expression (h : Has s Node.isVariable i) : Has s Node.isExpression i :=
  h.weaken isExpression_of_isVariable

/-! ## Rules for parts -/

theorem allows_of {r : PartRule} (hs : ∀ e ∈ r.special, e.1 = i → e.2 n = true)
    (hg : (∃ e ∈ r.special, e.1 = i) ∨ ∃ f, r.general = some f ∧ f n = true) : r.allows i n = true := by
  unfold PartRule.allows
  split
  · rename_i j f hf
    have hm := List.mem_of_find?_eq_some hf
    have hj := List.find?_some hf
    exact hs (j, f) (List.mem_reverse.mp hm) (by simpa using hj)
  · rename_i hf
    rcases hg with ⟨e, he, rfl⟩ | ⟨f, hf', hn⟩
    · have := List.find?_eq_none.mp hf e (List.mem_reverse.mpr he)
      simp at this
    · rw [hf']
      exact hn

theorem PartsFit.ofGeneral {f : Node → Bool} (hr : partRule s true n = .ok ⟨[], some f⟩)
    (h : ∀ c ∈ n.children, f (s.node c) = true) : PartsFit s n :=
  ⟨_, hr, fun c hc => allows_of (by simp) (.inr ⟨f, rfl, h c hc⟩)⟩

theorem PartsFit.ofPair {a b : NodeId} {f g : Node → Bool} {general : Option (Node → Bool)}
    (hr : partRule s true n = .ok ⟨[(a, f), (b, g)], general⟩)
    (hc : ∀ c ∈ n.children, c = a ∨ c = b) (ha : f (s.node a) = true) (hb : g (s.node b) = true) :
    PartsFit s n := by
  refine ⟨_, hr, fun c hm => allows_of ?_ (.inl ?_)⟩
  · rintro e he rfl
    rcases List.mem_pair.mp he with rfl | rfl
    · exact ha
    · exact hb
  · rcases hc c hm with rfl | rfl
    · exact ⟨_, List.mem_cons_self, rfl⟩
    · exact ⟨_, List.mem_cons_of_mem _ List.mem_cons_self, rfl⟩

/-! ## Steps that make a plain tree -/

/-- A step adds a plain tree. -/
def Makes (m : Edit NodeId) (w : Work Unit) (fits : Node → Bool) : Prop :=
  Succeeds m w fun i w' => Grows w.store w'.store ∧ Has w'.store fits i

/-- A step adds plain trees. -/
def MakesAll (m : Edit (List NodeId)) (w : Work Unit) (fits : Node → Bool) : Prop :=
  Succeeds m w fun xs w' => Grows w.store w'.store ∧ ∀ i ∈ xs, Has w'.store fits i

variable {w : Work Unit}

theorem Makes.weaken {m : Edit NodeId} (h : Makes m w fits)
    (hf : ∀ n, fits n = true → fits' n = true) : Makes m w fits' :=
  h.mono fun _ _ hi => ⟨hi.1, hi.2.weaken hf⟩

theorem Makes.next {m : Edit NodeId} {f : NodeId → Edit NodeId} (h : Makes m w fits)
    (hf : ∀ i w1, Grows w.store w1.store → Has w1.store fits i → Makes (f i) w1 fits') :
    Makes (m >>= f) w fits' :=
  Succeeds.next h fun i w1 hi => (hf i w1 hi.1 hi.2).mono fun _ _ hj => ⟨hi.1.trans hj.1, hj.2⟩

theorem MakesAll.next {m : Edit (List NodeId)} {f : List NodeId → Edit NodeId}
    (h : MakesAll m w fits)
    (hf : ∀ xs w1, Grows w.store w1.store → (∀ i ∈ xs, Has w1.store fits i) →
      Makes (f xs) w1 fits') : Makes (m >>= f) w fits' :=
  Succeeds.next h fun xs w1 hi => (hf xs w1 hi.1 hi.2).mono fun _ _ hj => ⟨hi.1.trans hj.1, hj.2⟩

theorem succeeds_mapM_makes {α : Type} {f : α → Edit NodeId} {xs : List α}
    (h : ∀ x ∈ xs, ∀ v, Makes (f x) v fits) :
    Succeeds (xs.mapM f) w fun ys w' =>
      ys.length = xs.length ∧ Grows w.store w'.store ∧ ∀ i ∈ ys, Has w'.store fits i := by
  refine Succeeds.mapM (fun ys v => Grows w.store v.store ∧ ∀ i ∈ ys, Has v.store fits i)
    ⟨.refl _, by simp⟩ ?_
  intro ys x v hx hv
  refine (h x (List.mem_of_getElem? hx) v).mono fun i v' hi => ⟨hv.1.trans hi.1, ?_⟩
  intro j hj
  rcases List.mem_append.mp hj with hj | hj
  · exact (hv.2 j hj).grow hi.1
  · obtain rfl := List.mem_singleton.mp hj
    exact hi.2

theorem MakesAll.mapM {α : Type} {f : α → Edit NodeId} {xs : List α}
    (h : ∀ x ∈ xs, ∀ v, Makes (f x) v fits) : MakesAll (xs.mapM f) w fits :=
  (succeeds_mapM_makes h).mono fun _ _ hys => hys.2

theorem makes_addCell {c : Cell} (hi : isInner c.node = true) (hs : PartsFit w.store c.node)
    (hc : ∀ k ∈ c.node.children, Has w.store (fun _ => true) k)
    (hq : c.address = none ∨ isIdentifierNode c.node = true) (hf : fits c.node = true) :
    Makes (addCell c) w fits := by
  refine succeeds_addCell ⟨grows_push _ _, ?_⟩
  have hg := grows_push w.store c
  have hnode : (Store.mk (w.store.cells.push c)).node ⟨w.store.cells.size⟩ = c.node := by
    rw [Store.node, cell_push_self]
  refine ⟨?_, ?_, by rw [hnode]; exact hf⟩
  · rw [Array.size_push]
    refine ⟨by rw [hnode]; exact hi, ?_, fun k hk => ?_⟩
    · rw [hnode]
      exact hs.congr (.inl hi) fun k hk => hg.keeps.node (hc k hk).plain.inner
    · rw [hnode] at hk
      exact ⟨((hc k hk).grow hg).quiet, (hc k hk).plain.keep hg.keeps (Nat.le_refl _)⟩
  · rw [Quiet, hnode, cell_push_self]
    exact hq

theorem makes_add (hi : isInner n = true) (hs : PartsFit w.store n)
    (hc : ∀ k ∈ n.children, Has w.store (fun _ => true) k) (hf : fits n = true) :
    Makes (add n) w fits :=
  makes_addCell hi hs hc (.inl rfl) hf

theorem Has.any (h : Has s fits i) : Has s (fun _ => true) i := h.weaken fun _ _ => rfl

theorem makes_leaf (hi : isInner n = true) (hr : partRule w.store true n = .ok {})
    (hc : n.children = []) (hf : fits n = true) : Makes (add n) w fits :=
  makes_add hi ⟨_, hr, by simp [hc]⟩ (by simp [hc]) hf

theorem makes_list {kind : ListKind} {xs : List NodeId} {f : Node → Bool} (hk : kind ≠ .statements)
    (hr : partRule w.store true (.list kind xs) = .ok ⟨[], some f⟩)
    (hx : ∀ x ∈ xs, Has w.store f x) : Makes (addList kind xs) w (Node.isList kind) :=
  makes_add (by simpa [isInner] using hk) (.ofGeneral hr fun x hm => (hx x hm).fits)
    (fun x hm => (hx x hm).any) (by simp [Node.isList])

theorem makes_expressions {xs : List NodeId} (hx : ∀ x ∈ xs, Has w.store Node.isExpression x) :
    Makes (addList .expressions xs) w (Node.isList .expressions) :=
  makes_list (by decide) rfl hx

theorem makes_binary {op : BinaryOp} {l r : NodeId} (hop : ∀ c, op ≠ .other c)
    (hl : Has w.store Node.isExpression l) (hr : Has w.store Node.isExpression r) :
    Makes (add (.binary op l r)) w Node.isExpression := by
  refine makes_add rfl (.ofGeneral (f := Node.isExpression) ?_ ?_) ?_ rfl
  · cases op <;> first | rfl | exact (hop _ rfl).elim
  all_goals simp [Node.children, hl.fits, hr.fits, hl.any, hr.any]

theorem makes_unary {op : UnaryOp} {x : NodeId} (hop : op = .not ∨ op = .length ∨ op = .minus)
    (hx : Has w.store Node.isExpression x) : Makes (add (.unary op x)) w Node.isExpression := by
  refine makes_add rfl (.ofGeneral (f := Node.isExpression) ?_ ?_) ?_ rfl
  · rcases hop with rfl | rfl | rfl <;> rfl
  all_goals simp [Node.children, hx.fits, hx.any]

theorem makes_element {t k : NodeId} (ht : Has w.store Node.isExpression t)
    (hk : Has w.store Node.isExpression k) : Makes (add (.element t k)) w Node.isVariable := by
  refine makes_add rfl (.ofGeneral (f := Node.isExpression) rfl ?_) ?_ rfl
  all_goals simp [Node.children, ht.fits, hk.fits, ht.any, hk.any]

theorem makes_call {f as : NodeId} (hf : Has w.store Node.isVariable f)
    (ha : Has w.store (Node.isList .expressions) as) :
    Makes (add (.call f as)) w fun n => n.isStatement && n.isExpression := by
  refine makes_add rfl (.ofPair rfl ?_ hf.fits ha.fits) ?_ rfl
  · simp [Node.children, or_comm]
  · simp [Node.children, hf.any, ha.any]

theorem makes_table {a r : NodeId} (ha : Has w.store (Node.isList .records) a)
    (hr : Has w.store (Node.isList .records) r) : Makes (add (.table a r)) w Node.isExpression := by
  refine makes_add rfl (.ofGeneral (f := Node.isList .records) rfl ?_) ?_ rfl
  all_goals simp [Node.children, ha.fits, hr.fits, ha.any, hr.any]

end LuaLift.Proofs
