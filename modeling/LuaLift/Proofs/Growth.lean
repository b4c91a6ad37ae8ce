import Mathlib.Data.List.Nodup
import Mathlib.Data.List.Perm.Subperm
import LuaLift.Proofs.Returns
import LuaLift.Tree.Copy

/-! # Stores that only grow

Many steps add nodes and leave those alone that are there (`Grows`). A copy of a node is
the plainest of them: each copied node has the links of its original, led to the copies. -/
namespace LuaLift.Proofs
open Tree

variable {σ α : Type}

/-- All nodes of `s` are unchanged in `s'`. -/
structure Grows (s s' : Store) : Prop where
  size : s.cells.size ≤ s'.cells.size
  cell : ∀ i : NodeId, i.index < s.cells.size → s'.cell i = s.cell i

theorem Grows.refl (s : Store) : Grows s s := ⟨Nat.le_refl _, fun _ _ => rfl⟩

variable {c : Cell} {n : Node} {i j root : NodeId} {image : NodeId → NodeId} {s s' : Store} {w w' : Work σ}

theorem Grows.trans {s'' : Store} (h : Grows s s') (h' : Grows s' s'') : Grows s s'' :=
  ⟨Nat.le_trans h.size h'.size, fun i hi => (h'.cell i (Nat.lt_of_lt_of_le hi h.size)).trans (h.cell i hi)⟩

theorem cell_outside (h : s.cells.size ≤ i.index) : s.cell i = ⟨.absent, none, false⟩ := by
  simp [Store.cell, Array.getD, Nat.not_lt.mpr h]

theorem inside_of_node (h : s.node i ≠ .absent) : i.index < s.cells.size := by
  refine Nat.lt_of_not_le fun hi => h ?_
  simp [Store.node, cell_outside hi]

theorem length_le_size {ids : List NodeId} (hd : ids.Nodup) (hin : ∀ j ∈ ids, s.node j ≠ .absent) :
    ids.length ≤ s.cells.size := by
  have hmap : (ids.map NodeId.index).Nodup := by
    refine hd.map fun a b hab => ?_
    cases a; cases b; cases hab; rfl
  have hsub : ids.map NodeId.index ⊆ List.range s.cells.size := by
    intro k hk
    obtain ⟨j, hj, rfl⟩ := List.mem_map.mp hk
    exact List.mem_range.mpr (inside_of_node (hin j hj))
  have := (List.subperm_of_subset hmap hsub).length_le
  rwa [List.length_map, List.length_range] at this

theorem Grows.node (h : Grows s s') (hi : s.node i ≠ .absent) : s'.node i = s.node i := by
  simp only [Store.node, h.cell i (inside_of_node hi)]

theorem Grows.node_eq (h : Grows s s') (hi : s.node i = n) (hn : n ≠ .absent) : s'.node i = n := by
  subst hi
  exact h.node hn

/-! ## Adding a node -/

theorem cell_push_of_lt (h : i.index < s.cells.size) : (Store.mk (s.cells.push c)).cell i = s.cell i := by
  simp [Store.cell, Array.getD, Array.getElem_push_lt h, h, Nat.lt_succ_of_lt h]

theorem cell_push_self : (Store.mk (s.cells.push c)).cell ⟨s.cells.size⟩ = c := by
  simp [Store.cell, Array.getD]

theorem grows_push (s : Store) (c : Cell) : Grows s ⟨s.cells.push c⟩ :=
  ⟨by simp, fun _ hi => cell_push_of_lt hi⟩

theorem returns_add_grows (h : Returns (Pass.add n) w i w') :
    Grows w.store w'.store ∧ w'.store.node i = n := by
  obtain ⟨rfl, rfl⟩ := returns_add h
  exact ⟨grows_push _ _, by simp [Store.node, cell_push_self]⟩

/-! ## Changing a node -/

theorem cell_setNode_self (h : i.index < s.cells.size) :
    (s.setNode i n).cell i = { s.cell i with node := n } := by
  simp [Store.cell, Store.setNode, Store.modifyCell, Array.getD, Array.getElem_modify, h]

theorem cell_setNode_of_ne (h : j ≠ i) : (s.setNode i n).cell j = s.cell j := by
  have hj : i.index ≠ j.index := fun he => h (by cases i; cases j; simp_all)
  simp [Store.cell, Store.setNode, Store.modifyCell, Array.getD, Array.getElem_modify, hj]

theorem node_setNode_self (h : i.index < s.cells.size) : (s.setNode i n).node i = n := by
  simp [Store.node, cell_setNode_self h]

theorem node_setNode_of_ne (h : j ≠ i) : (s.setNode i n).node j = s.node j := by
  simp [Store.node, cell_setNode_of_ne h]

theorem size_setNode (s : Store) (i : NodeId) (n : Node) :
    (s.setNode i n).cells.size = s.cells.size := by
  simp [Store.setNode, Store.modifyCell]

theorem Grows.setNode (h : Grows s s') (hi : s.cells.size ≤ i.index) : Grows s (s'.setNode i n) := by
  refine ⟨by rw [size_setNode]; exact h.size, fun j hj => ?_⟩
  have hne : j ≠ i := by rintro rfl; omega
  rw [cell_setNode_of_ne hne, h.cell j hj]

/-! ## Copies -/

/-- Where a copy of `nodes` puts each of them, when the first goes to number `base`. -/
def copyImage (base : Nat) (nodes : List NodeId) (i : NodeId) : NodeId :=
  match nodes.idxOf? i with
  | some k => ⟨base + k⟩
  | none => i

/-- Adds a copy of a node with other links. -/
def addCopy (image : NodeId → NodeId) (i : NodeId) : Pass σ Unit := do
  let c ← Pass.cell i
  let _ ← Pass.addCell { c with node := c.node.mapLinks image }

theorem copyDeep_eq (root : NodeId) : (copyDeep root : Pass σ NodeId) = (do
    let s := (← get).store
    let nodes := reach s (s.linkCount + 1) [root] []
    nodes.forM (addCopy (copyImage s.cells.size nodes))
    return copyImage s.cells.size nodes root) := rfl

theorem returns_addCopy {u : Unit} (h : Returns (addCopy image i) w u w') :
    w'.store.cells.size = w.store.cells.size + 1 ∧ Grows w.store w'.store ∧
      w'.store.node ⟨w.store.cells.size⟩ = (w.store.node i).mapLinks image := by
  obtain ⟨c, w1, hc, h⟩ := h.bind
  obtain ⟨rfl, rfl⟩ := returns_cell hc
  obtain ⟨k, w2, ha, h⟩ := h.bind
  obtain ⟨-, rfl⟩ := returns_addCell ha
  obtain ⟨-, rfl⟩ := h.pure
  exact ⟨by simp, grows_push _ _, by simp [Store.node, cell_push_self]⟩

theorem returns_addCopies :
    ∀ {nodes : List NodeId} {w w' : Work σ} {u : Unit}, Grows s w.store →
      Returns (nodes.forM (addCopy image)) w u w' →
      Grows w.store w'.store ∧ ∀ (k : Nat) (i : NodeId), nodes[k]? = some i → s.node i ≠ .absent →
        w'.store.node ⟨w.store.cells.size + k⟩ = (s.node i).mapLinks image
  | [], w, w', u, _, h => by
    obtain ⟨-, rfl⟩ := h.pure
    exact ⟨.refl _, fun k i hk => by simp at hk⟩
  | j :: rest, w, w', u, hs, h => by
    obtain ⟨u1, w1, hj, h⟩ := h.bind
    obtain ⟨hsize, hg, hn⟩ := returns_addCopy hj
    obtain ⟨hg', hrest⟩ := returns_addCopies (hs.trans hg) h
    refine ⟨hg.trans hg', fun k i hk hi => ?_⟩
    cases k with
    | zero =>
      obtain rfl : j = i := by simpa using hk
      have hin : (⟨w.store.cells.size⟩ : NodeId).index < w1.store.cells.size := by rw [hsize]; simp
      rw [← hs.node hi, ← hn]
      simp only [Store.node, Nat.add_zero, hg'.cell _ hin]
    | succ k =>
      have := hrest k i (by simpa using hk) hi
      rwa [hsize, Nat.add_right_comm, Nat.add_assoc] at this

theorem reach_found :
    ∀ (fuel : Nat) (todo found : List NodeId), i ∈ found → i ∈ reach s fuel todo found
  | 0, _, _, h => h
  | _ + 1, [], _, h => h
  | fuel + 1, j :: todo, found, h => by
    unfold reach
    split
    · exact reach_found fuel todo found h
    · exact reach_found fuel _ _ (List.mem_append_left _ h)

theorem root_reached (h : root ≠ .absent) (fuel : Nat) : root ∈ reach s (fuel + 1) [root] [] := by
  unfold reach
  rw [if_neg (by simpa using h)]
  exact reach_found _ _ _ (by simp)

/-- A copy leaves the store alone and adds, for each node that it copies, one with the
same shape whose links lead to the copies. The node itself is among them. -/
theorem returns_copyDeep {copy : NodeId} (h : Returns (copyDeep root) w copy w') :
    Grows w.store w'.store ∧ ∃ image : NodeId → NodeId, copy = image root ∧
      (∀ i, image i = i ∨ w.store.cells.size ≤ (image i).index ∧ (w.store.node i ≠ .absent →
        w'.store.node (image i) = (w.store.node i).mapLinks image)) ∧
      (root ≠ .absent → w.store.cells.size ≤ (image root).index) := by
  rw [copyDeep_eq] at h
  obtain ⟨v, w1, hv, rest⟩ := h.bind
  obtain ⟨rfl, rfl⟩ := returns_get hv
  obtain ⟨u, w2, hc, ret⟩ := Returns.bind rest
  obtain ⟨rfl, rfl⟩ := ret.pure
  obtain ⟨hg, hn⟩ := returns_addCopies (.refl _) hc
  refine ⟨hg, _, rfl, fun i => ?_, fun hr => ?_⟩
  · unfold copyImage
    split
    · rename_i k hk
      obtain ⟨hlt, hget, -⟩ := List.idxOf?_eq_some_iff.mp hk
      exact .inr ⟨by simp, hn k i (by rw [List.getElem?_eq_getElem hlt, hget])⟩
    · exact .inl rfl
  · unfold copyImage
    split
    · simp
    · rename_i hk
      exact absurd (root_reached hr _) (List.idxOf?_eq_none_iff.mp hk)

end LuaLift.Proofs
