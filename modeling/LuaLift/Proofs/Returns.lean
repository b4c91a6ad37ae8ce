import LuaLift.Tree.Walk

/-! # Runs of a step

`Returns p w a w'` says that a step succeeds on `w` with result `a` and leaves `w'`.
A sequence of steps is taken apart at its front, so that proofs about a long step
follow its text from the first line on. -/
namespace LuaLift.Proofs
open Tree

variable {σ α β : Type}

/-- A step succeeds on `w` with result `a` and leaves `w'`. -/
def Returns (p : Pass σ α) (w : Work σ) (a : α) (w' : Work σ) : Prop := p w = .ok a w'

variable {τ : Type} {holds : Bool} {c : Cell} {xs : List α} {n : Node} {i : NodeId} {p : Pass σ α}
  {rule : String} {u : Unit} {v w w' w'' : Work σ} {a : α} {f : α → Pass σ β} {b : β} {init : τ}

theorem Returns.bind (h : Returns (p >>= f) w b w'') : ∃ a w', Returns p w a w' ∧ Returns (f a) w' b w'' := by
  change EStateM.bind p f w = .ok b w'' at h
  unfold EStateM.bind at h
  split at h
  · rename_i a w' hp
    exact ⟨a, w', hp, h⟩
  · cases h

theorem Returns.ofBind (hp : Returns p w a w') (hf : Returns (f a) w' b w'') : Returns (p >>= f) w b w'' := by
  change EStateM.bind p f w = .ok b w''
  unfold EStateM.bind
  rw [show p w = .ok a w' from hp]
  exact hf

theorem Returns.pure {b : α} (h : Returns (Pure.pure a : Pass σ α) w b w') : a = b ∧ w = w' := by
  cases h
  exact ⟨rfl, rfl⟩

theorem Returns.throw {e : Fault} (h : Returns (throw e : Pass σ α) w a w') : False := by
  change EStateM.Result.error e w = .ok a w' at h
  cases h

theorem Returns.ofRequire (h : holds = true) : Returns (Pass.require holds rule) w () w := by
  rw [Pass.require, if_pos h]
  rfl

theorem Returns.within {p : Pass τ α} {v : Work τ} (h : Returns p ⟨w.store, init⟩ a v) :
    Returns (Pass.within init p) w (a, v.own) ⟨v.store, w.own⟩ := by
  change Pass.within init p w = _
  unfold Pass.within
  rw [show p ⟨w.store, init⟩ = .ok a v from h]

theorem returns_mapM {g : α → β} (h : ∀ x ∈ xs, Returns (f x) w (g x) w) :
    Returns (xs.mapM f) w (xs.map g) w := by
  induction xs with
  | nil => rfl
  | cons x xs ih =>
    rw [List.mapM_cons]
    refine (h x List.mem_cons_self).ofBind ?_
    exact (ih fun y hy => h y (List.mem_cons_of_mem _ hy)).ofBind rfl

theorem filterM_inv {f : α → Pass σ Bool} {ys : List α} (hf : ∀ x b v, Returns (f x) w b v → v = w)
    (h : Returns (xs.filterM f) w ys w') : w' = w := by
  have haux : ∀ {xs kept zs : List α} {v : Work σ},
      Returns (List.filterAuxM f xs kept) w zs v → v = w := by
    intro xs
    induction xs with
    | nil => exact fun h => h.pure.2.symm
    | cons x xs ih =>
      intro kept zs v h
      obtain ⟨b, w1, hb, hrest⟩ := h.bind
      obtain rfl := hf x b w1 hb
      exact ih hrest
  obtain ⟨zs, w1, h1, hpure⟩ := h.bind
  obtain rfl := haux h1
  exact hpure.pure.2.symm

/-! ## Single steps -/

theorem returns_get (h : Returns (get : Pass σ (Work σ)) w v w') : w = v ∧ w = w' := by
  cases h
  exact ⟨rfl, rfl⟩

theorem returns_node (h : Returns (Pass.node i) w n w') : w.store.node i = n ∧ w = w' := by
  obtain ⟨v, w1, hv, hn⟩ := h.bind
  obtain ⟨rfl, rfl⟩ := returns_get hv
  exact hn.pure

theorem returns_cell (h : Returns (Pass.cell i) w c w') : w.store.cell i = c ∧ w = w' := by
  obtain ⟨v, w1, hv, hn⟩ := h.bind
  obtain ⟨rfl, rfl⟩ := returns_get hv
  exact hn.pure

theorem returns_require (h : Returns (Pass.require holds rule) w u w') : holds = true ∧ w = w' := by
  unfold Pass.require at h
  split at h
  · rename_i hh
    exact ⟨hh, h.pure.2⟩
  · exact h.throw.elim

theorem returns_setNode (h : Returns (Pass.setNode i n) w u w') :
    w' = { w with store := w.store.setNode i n } := by
  cases h
  rfl

theorem returns_addCell (h : Returns (Pass.addCell c) w i w') :
    i = ⟨w.store.cells.size⟩ ∧ w' = { w with store := ⟨w.store.cells.push c⟩ } := by
  cases h
  exact ⟨rfl, rfl⟩

theorem returns_add (h : Returns (Pass.add n) w i w') :
    i = ⟨w.store.cells.size⟩ ∧ w' = { w with store := ⟨w.store.cells.push { node := n }⟩ } :=
  returns_addCell h

theorem returns_block {b : Block} (h : Returns (Pass.block i) w b w') :
    w.store.node i = .block b ∧ w = w' := by
  obtain ⟨n, w1, hn, hb⟩ := h.bind
  obtain ⟨rfl, rfl⟩ := returns_node hn
  split at hb
  · rename_i b' hb'
    obtain ⟨rfl, rfl⟩ := hb.pure
    exact ⟨hb', rfl⟩
  · exact hb.throw.elim

theorem returns_atPosition {i : Int} {x : α} (h : Returns (Pass.atPosition xs i) w x w') :
    at? xs i = some x ∧ w = w' := by
  unfold Pass.atPosition at h
  split at h
  · rename_i y hy
    obtain ⟨rfl, rfl⟩ := h.pure
    exact ⟨hy, rfl⟩
  · exact h.throw.elim

theorem own_inv {x : σ} (h : Returns (Pass.own : Pass σ σ) w x w') : x = w.own ∧ w' = w := by
  obtain ⟨v, w1, hv, hn⟩ := h.bind
  obtain ⟨rfl, rfl⟩ := returns_get hv
  obtain ⟨rfl, rfl⟩ := hn.pure
  exact ⟨rfl, rfl⟩

theorem items_inv {xs : List NodeId} (h : Returns (Pass.items i) w xs w') :
    (w.store.node i).items = xs ∧ w' = w ∧
      ((∃ kind, w.store.node i = .list kind xs) ∨ ∃ b, w.store.node i = .block b ∧ b.contents = xs) := by
  obtain ⟨n, w1, hn, hrest⟩ := h.bind
  obtain ⟨rfl, rfl⟩ := returns_node hn
  split at hrest
  · rename_i kind ys hlist
    obtain ⟨rfl, rfl⟩ := hrest.pure
    exact ⟨by rw [hlist]; rfl, rfl, .inl ⟨kind, hlist⟩⟩
  · rename_i b hb
    obtain ⟨rfl, rfl⟩ := hrest.pure
    exact ⟨by rw [hb]; rfl, rfl, .inr ⟨b, hb, rfl⟩⟩
  · exact hrest.throw.elim

theorem firstItem_inv {x : NodeId} (h : Returns (Pass.firstItem i) w x w') :
    w' = w ∧ x ∈ (w.store.node i).items := by
  obtain ⟨xs, w1, h1, hrest⟩ := h.bind
  obtain ⟨hxs, rfl, -⟩ := items_inv h1
  split at hrest
  · obtain ⟨rfl, rfl⟩ := hrest.pure
    exact ⟨rfl, by rw [hxs]; exact List.mem_cons_self⟩
  · exact hrest.throw.elim

theorem Returns.atNode {f : Node → Pass σ α} (h : Returns (Pass.node i >>= f) w a w') :
    Returns (f (w.store.node i)) w a w' := by
  obtain ⟨n, w1, hn, hrest⟩ := h.bind
  obtain ⟨rfl, rfl⟩ := returns_node hn
  exact hrest

theorem within_inv {p : Pass τ α} {a : α × τ} (h : Returns (Pass.within init p) w a w') :
    ∃ v, Returns p ⟨w.store, init⟩ a.1 v ∧ a.2 = v.own ∧ w' = ⟨v.store, w.own⟩ := by
  unfold Returns Pass.within at h
  split at h
  · rename_i b v hp
    cases h
    exact ⟨v, hp, rfl, rfl⟩
  · cases h

theorem Returns.unique {v' : Work σ} {b : α} (h : Returns p w a v) (h' : Returns p w b v') :
    b = a ∧ v' = v := by
  cases h.symm.trans h'
  exact ⟨rfl, rfl⟩

/-! ## Walks -/

theorem walk_inv {v : Visitor σ} {d : Nat} (h : Returns (walk v (d + 1) i) w () w') :
    ∃ admitted w1, Returns (v.admits i) w admitted w1 ∧ (admitted = false ∧ w' = w1 ∨ ∃ w2 w3,
      w1.store.node i ≠ .absent ∧ Returns (v.enter i) w1 () w2 ∧
      Returns ((w2.store.node i).children.forM (walk v d)) w2 () w3 ∧ Returns (v.leave i) w3 () w') := by
  obtain ⟨admitted, w1, h1, h⟩ := h.bind
  refine ⟨admitted, w1, h1, ?_⟩
  cases admitted with
  | false => exact .inl ⟨rfl, h.pure.2.symm⟩
  | true =>
    have h := h.atNode
    obtain ⟨u, w2, h2, h⟩ := h.bind
    obtain ⟨hpresent, rfl⟩ := returns_require h2
    obtain ⟨u, w3, h3, h⟩ := h.bind
    obtain ⟨u, w4, h4, h⟩ := h.atNode.bind
    exact .inr ⟨w3, w4, by simpa using hpresent, h3, h4, h⟩

end LuaLift.Proofs
