import LuaLift.Proofs.Growth

/-! # Steps that succeed

`Succeeds p w post` says that a step has a result on `w` and that `post` holds of it. A
sequence of steps is followed from the first line on, and a loop by what one round keeps.
`Alters P s s'` says which of the nodes that are there a step may touch: those of `P` only. -/
namespace LuaLift.Proofs
open Tree

variable {σ α β : Type}

/-- A step succeeds on `w`, and its result and what it leaves satisfy `post`. -/
def Succeeds (p : Pass σ α) (w : Work σ) (post : α → Work σ → Prop) : Prop :=
  ∃ a w', Returns p w a w' ∧ post a w'

variable {b : Block} {xs : List α} {i : NodeId} {p : Pass σ α} {w : Work σ} {a : α} {f : α → Pass σ β}
  {post : α → Work σ → Prop}

theorem Succeeds.mono {post' : α → Work σ → Prop} (h : Succeeds p w post)
    (hpost : ∀ a w', post a w' → post' a w') : Succeeds p w post' := by
  obtain ⟨a, w', hr, ha⟩ := h
  exact ⟨a, w', hr, hpost a w' ha⟩

theorem Succeeds.bind {post : β → Work σ → Prop} (h : Succeeds p w fun a w' => Succeeds (f a) w' post) :
    Succeeds (p >>= f) w post := by
  obtain ⟨a, w', hp, b, w'', hf, hb⟩ := h
  exact ⟨b, w'', hp.ofBind hf, hb⟩

theorem Succeeds.next {mid : α → Work σ → Prop} {post : β → Work σ → Prop} (h : Succeeds p w mid)
    (hf : ∀ a w', mid a w' → Succeeds (f a) w' post) : Succeeds (p >>= f) w post :=
  (h.mono hf).bind

theorem Succeeds.pure (h : post a w) : Succeeds (Pure.pure a) w post := ⟨a, w, rfl, h⟩

theorem Returns.succeeds {w' : Work σ} (hr : Returns p w a w') (h : post a w') :
    Succeeds p w post := ⟨a, w', hr, h⟩

/-! ## Single steps -/

theorem succeeds_get {post : Work σ → Work σ → Prop} (h : post w w) : Succeeds get w post := ⟨w, w, rfl, h⟩

theorem succeeds_node {post : Node → Work σ → Prop} (h : post (w.store.node i) w) :
    Succeeds (Pass.node i) w post := ⟨_, _, rfl, h⟩

theorem succeeds_cell {post : Cell → Work σ → Prop} (h : post (w.store.cell i) w) :
    Succeeds (Pass.cell i) w post := ⟨_, _, rfl, h⟩

theorem succeeds_require {holds : Bool} {rule : String} {post : Unit → Work σ → Prop} (hh : holds = true)
    (h : post () w) : Succeeds (Pass.require holds rule) w post :=
  (Returns.ofRequire hh).succeeds h

theorem succeeds_modifyStore {f : Store → Store} {post : Unit → Work σ → Prop}
    (h : post () { w with store := f w.store }) : Succeeds (Pass.modifyStore f) w post :=
  ⟨(), _, rfl, h⟩

theorem succeeds_addCell {c : Cell} {post : NodeId → Work σ → Prop}
    (h : post ⟨w.store.cells.size⟩ { w with store := ⟨w.store.cells.push c⟩ }) :
    Succeeds (Pass.addCell c) w post := ⟨_, _, rfl, h⟩

theorem succeeds_added (cell : Cell) (w : Work σ) :
    Succeeds (Pass.addCell cell) w fun i w' => Grows w.store w'.store ∧ w'.store.node i = cell.node :=
  succeeds_addCell ⟨grows_push _ _, by rw [Store.node, cell_push_self]⟩

theorem succeeds_block {post : Block → Work σ → Prop} (hb : w.store.node i = .block b) (h : post b w) :
    Succeeds (Pass.block i) w post := by
  apply Succeeds.bind
  apply succeeds_node
  rw [hb]
  exact .pure h

theorem succeeds_modifyBlock {f : Block → Block} {post : Unit → Work σ → Prop}
    (hb : w.store.node i = .block b) (h : post () { w with store := w.store.setNode i (.block (f b)) }) :
    Succeeds (Pass.modifyBlock i f) w post :=
  (succeeds_block hb (succeeds_modifyStore h)).bind

theorem succeeds_atPosition {k : Int} {x : α} (hx : at? xs k = some x) (h : post x w) :
    Succeeds (Pass.atPosition xs k) w post := by
  unfold Pass.atPosition
  rw [hx]
  exact .pure h

/-! ## Loops -/

/-- What each round keeps of the results so far holds of all results. -/
theorem Succeeds.mapM (inv : List β → Work σ → Prop) (start : inv [] w)
    (step : ∀ ys x v, xs[ys.length]? = some x → inv ys v → Succeeds (f x) v fun y v' => inv (ys ++ [y]) v') :
    Succeeds (xs.mapM f) w fun ys w' => ys.length = xs.length ∧ inv ys w' := by
  induction xs generalizing inv w with
  | nil => exact .pure ⟨rfl, start⟩
  | cons x xs ih =>
    rw [List.mapM_cons]
    refine (step [] x w rfl start).next fun y w1 h1 => ?_
    have hrest := ih (fun ys v => inv (y :: ys) v) (w := w1) h1
      fun ys x' v hx hv => (step (y :: ys) x' v (by simpa using hx) hv).mono fun _ _ h => h
    exact hrest.next fun ys w2 h2 => .pure ⟨by simp [h2.1], h2.2⟩

theorem Succeeds.forM {f : α → Pass σ Unit} (inv : Nat → Work σ → Prop) (start : inv 0 w)
    (step : ∀ k x v, xs[k]? = some x → inv k v → Succeeds (f x) v fun _ v' => inv (k + 1) v') :
    Succeeds (xs.forM f) w fun _ w' => inv xs.length w' := by
  induction xs generalizing inv w with
  | nil => exact .pure start
  | cons x xs ih =>
    refine Succeeds.next (step 0 x w rfl start) fun u w1 h1 => ?_
    exact ih (fun k v => inv (k + 1) v) h1 fun k x' v hx hv => step (k + 1) x' v (by simpa using hx) hv

/-! ## What is left alone -/

/-- All nodes of `s` but those of `P` are unchanged in `s'`. -/
structure Alters (P : NodeId → Prop) (s s' : Store) : Prop where
  size : s.cells.size ≤ s'.cells.size
  cell : ∀ i : NodeId, i.index < s.cells.size → ¬ P i → s'.cell i = s.cell i

variable {P Q : NodeId → Prop} {s s' s'' : Store} {f : Cell → Cell}

theorem Alters.refl (P : NodeId → Prop) (s : Store) : Alters P s s := ⟨Nat.le_refl _, fun _ _ _ => rfl⟩

theorem Alters.trans (h : Alters P s s') (h' : Alters P s' s'') : Alters P s s'' :=
  ⟨Nat.le_trans h.size h'.size, fun i hi hn =>
    (h'.cell i (Nat.lt_of_lt_of_le hi h.size) hn).trans (h.cell i hi hn)⟩

theorem Alters.mono (h : Alters P s s') (hPQ : ∀ i, i.index < s.cells.size → P i → Q i) :
    Alters Q s s' :=
  ⟨h.size, fun i hi hn => h.cell i hi fun hp => hn (hPQ i hi hp)⟩

theorem Grows.alters (h : Grows s s') : Alters P s s' := ⟨h.size, fun i hi _ => h.cell i hi⟩

theorem Alters.grows (h : Alters P s s') (hP : ∀ i, P i → s.cells.size ≤ i.index) : Grows s s' :=
  ⟨h.size, fun i hi => h.cell i hi fun hp => absurd (hP i hp) (by omega)⟩

theorem Alters.node (h : Alters P s s') (hi : s.node i ≠ .absent) (hp : ¬ P i) : s'.node i = s.node i := by
  simp only [Store.node, h.cell i (inside_of_node hi) hp]

theorem cell_modifyCell_self (h : i.index < s.cells.size) :
    (s.modifyCell i f).cell i = f (s.cell i) := by
  simp [Store.cell, Store.modifyCell, Array.getD, Array.getElem_modify, h]

theorem cell_modifyCell_of_ne {j : NodeId} (h : j ≠ i) :
    (s.modifyCell i f).cell j = s.cell j := by
  have hj : i.index ≠ j.index := fun he => h (by cases i; cases j; simp_all)
  simp [Store.cell, Store.modifyCell, Array.getD, Array.getElem_modify, hj]

theorem size_modifyCell (s : Store) (i : NodeId) (f : Cell → Cell) :
    (s.modifyCell i f).cells.size = s.cells.size := by
  simp [Store.modifyCell]

theorem alters_modifyCell (hi : P i) : Alters P s (s.modifyCell i f) :=
  ⟨Nat.le_of_eq (size_modifyCell s i f).symm, fun _ _ hn => cell_modifyCell_of_ne fun he => hn (he ▸ hi)⟩

theorem alters_setNode {n : Node} (hi : P i) : Alters P s (s.setNode i n) :=
  alters_modifyCell hi

end LuaLift.Proofs
