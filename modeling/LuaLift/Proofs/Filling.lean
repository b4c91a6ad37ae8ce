import LuaLift.Proofs.Occurrences
import LuaLift.Proofs.Succeeding
import LuaLift.Proofs.Tidying

/-! # Filling constructors

The assignments that follow a constructor become its records. Every step of this keeps the store
in order and touches no node of the tree but the lists of the constructor. -/
namespace LuaLift.Proofs
open Tree Pass Tidy

variable {s t : Store} {root table a r key value : NodeId} {w : Work Unit}

variable {α σ : Type} {b : Bool} {xs ys : List NodeId} {n : Node} {i x y : NodeId} {P : NodeId → Prop}
  {u : Unit} {w' : Work σ}

theorem setItems_inv {kind : ListKind} (h : Returns (Pass.setItems i ys) ⟨t, ()⟩ u w)
    (hi : t.node i = .list kind xs) : w = ⟨t.setNode i (.list kind ys), ()⟩ := by
  have h := h.atNode
  rw [show (Work.mk t ()).store.node i = _ from hi] at h
  exact returns_setNode h

theorem arrayIndex_inv {k : Option Nat} (h : Returns (arrayIndex? n) ⟨t, ()⟩ k w) : w = ⟨t, ()⟩ := by
  unfold arrayIndex? at h
  split at h
  · exact h.pure.2.symm
  · exact h.throw.elim
  · exact h.pure.2.symm

/-- A step ends in a store that is in order, and changes nodes of `P` only. -/
def Adjusts (s : Store) (root : NodeId) (P : NodeId → Prop) (t : Store) (w : Work Unit) : Prop :=
  ∃ t', w = ⟨t', ()⟩ ∧ Orderly s root t' ∧ Alters P t t'

theorem Adjusts.refl (ht : Orderly s root t) : Adjusts s root P t ⟨t, ()⟩ :=
  ⟨t, rfl, ht, .refl P t⟩

theorem Adjusts.after {t1 : Store} (h : Adjusts s root P t1 w) (h1 : Alters P t t1) :
    Adjusts s root P t w := by
  obtain ⟨t', rfl, ht', halters⟩ := h
  exact ⟨t', rfl, ht', h1.trans halters⟩

theorem Adjusts.mono {Q : NodeId → Prop} (h : Adjusts s root P t w) (hPQ : ∀ i, P i → Q i) :
    Adjusts s root Q t w := by
  obtain ⟨t', rfl, ht', halters⟩ := h
  exact ⟨t', rfl, ht', halters.mono fun i _ => hPQ i⟩

theorem Orderly.addNode (hs : Tidyable s root) (ht : Orderly s root t) (hn : isAdded n = true)
    (hparts : ∀ c ∈ n.children, Known s root t c ∧ (ruleFor false n).allows c (t.node c) = true)
    (hrule : ∃ r, partRule t false n = .ok r) (hrun : Returns (Pass.add n) ⟨t, ()⟩ x w) :
    ∃ t', w = ⟨t', ()⟩ ∧ Orderly s root t' ∧ Grows t t' ∧ Known s root t' x ∧ t'.node x = n := by
  obtain ⟨hgrows, hnode⟩ := returns_add_grows hrun
  obtain ⟨rfl, rfl⟩ := returns_add hrun
  obtain ⟨ht', hx⟩ := ht.add hs hn hparts hrule
  exact ⟨_, rfl, ht', hgrows, hx, hnode⟩

theorem Orderly.start (hs : Tidyable s root) (ht : Orderly s root t) (hi : InTree s root i)
    (hn : t.node i = n) (hfixed : isMutable n = false) : s.node i = n :=
  hn ▸ (ht.reshaped hs hi).eq_start (by rw [hn]; exact hfixed)

section
variable (hs : Tidyable s root) (htable : InTree s root table) (hnode : s.node table = .table a r)
include hs htable hnode

theorem Orderly.tableNode (ht : Orderly s root t) : t.node table = .table a r :=
  (ht.same hs htable (by rw [hnode]; rfl)).trans hnode

theorem Orderly.arrayItems (ht : Orderly s root t) : ∃ xs, t.node a = .list .records xs ∧
    ∀ x ∈ xs, Known s root t x ∧ isArrayRecordNode (t.node x) = true := by
  have hn := ht.tableNode hs htable hnode
  obtain ⟨-, xs, hxs, hknown⟩ := ht.tableLists hs htable hn (.inl rfl)
  have htidy := ht.tables table htable
  rw [hn] at htidy
  have harrays := (Bool.and_eq_true_iff.mp htidy).1
  rw [hxs, List.all_eq_true] at harrays
  exact ⟨xs, hxs, fun x hx => ⟨(hknown x hx).1, harrays x hx⟩⟩

theorem Orderly.recordItems (ht : Orderly s root t) : ∃ xs, t.node r = .list .records xs ∧
    (∀ x ∈ xs, Known s root t x ∧ isRecordNode (t.node x) = true) ∧ areRecords (xs.map t.node) = true := by
  have hn := ht.tableNode hs htable hnode
  obtain ⟨-, xs, hxs, hknown⟩ := ht.tableLists hs htable hn (.inr rfl)
  have htidy := ht.tables table htable
  rw [hn] at htidy
  have hrecords := (Bool.and_eq_true_iff.mp htidy).2
  rw [hxs] at hrecords
  exact ⟨xs, hxs, hknown, hrecords⟩

theorem Orderly.setArray (ht : Orderly s root t)
    (hys : ∀ y ∈ ys, Known s root t y ∧ isArrayRecordNode (t.node y) = true)
    (hrun : Returns (setItems a ys) ⟨t, ()⟩ u w) : Adjusts s root (· = a) t w := by
  obtain ⟨xs, hxs, -⟩ := ht.arrayItems hs htable hnode
  obtain ⟨ha, -⟩ := ht.tableLists hs htable (ht.tableNode hs htable hnode) (.inl rfl)
  refine ⟨_, setItems_inv hrun hxs, ht.setRecords hs ha hxs (fun y hy => ⟨(hys y hy).1, ?_⟩) ?_ ?_,
    alters_setNode rfl⟩
  · have hy' := (hys y hy).2
    cases hn : t.node y <;> first | rfl | simp [hn, isArrayRecordNode] at hy'
  · refine validRecords_of_arrays fun n hn => ?_
    obtain ⟨y, hy, rfl⟩ := List.mem_map.mp hn
    exact (hys y hy).2
  · intro j a' r' hj hn
    have hj' := ht.start hs hj hn rfl
    exact ⟨fun _ y hy => (hys y hy).2,
      fun h => absurd h.symm (hs.apart table j a r a' r' htable hj hnode hj')⟩

theorem Orderly.setRecordList (ht : Orderly s root t) (hknown : ∀ y ∈ ys, Known s root t y)
    (hys : areRecords (ys.map t.node) = true) (hrun : Returns (setItems r ys) ⟨t, ()⟩ u w) :
    Adjusts s root (· = r) t w := by
  obtain ⟨xs, hxs, -⟩ := ht.recordItems hs htable hnode
  obtain ⟨hr, -⟩ := ht.tableLists hs htable (ht.tableNode hs htable hnode) (.inr rfl)
  refine ⟨_, setItems_inv hrun hxs, ht.setRecords hs hr hxs (fun y hy => ⟨hknown y hy, ?_⟩)
    (validRecords_of_areRecords hys) ?_, alters_setNode rfl⟩
  · exact isRecordNode_of_areRecords hys (List.mem_map_of_mem hy)
  · intro j a' r' hj hn
    have hj' := ht.start hs hj hn rfl
    exact ⟨fun h => absurd h (hs.apart j table a' r' a r hj htable hj' hnode), fun _ => hys⟩

/-- One more record or results of unknown number may stand behind records. -/
theorem Orderly.appendRecord (ht : Orderly s root t) (hxs : t.node r = .list .records xs)
    (hx : Known s root t x) (hrecord : (isTableRecordNode (t.node x) || isOpenEnd (t.node x)) = true)
    (hlast : ∀ y ∈ xs.getLast?, isOpenEnd (t.node y) = false)
    (hrun : Returns (setItems r (xs ++ [x])) ⟨t, ()⟩ u w) : Adjusts s root (· = r) t w := by
  obtain ⟨ys, hys, hitems, hrecords⟩ := ht.recordItems hs htable hnode
  cases hxs.symm.trans hys
  refine ht.setRecordList hs htable hnode (fun y hy => ?_) ?_ hrun
  · rcases List.mem_append.mp hy with hy | hy
    · exact (hitems y hy).1
    · exact List.mem_singleton.mp hy ▸ hx
  · rw [List.map_append, List.map_singleton, areRecords_append, hrecord, tableRecords_of_closed hrecords]
    · rfl
    · intro n hn
      rw [List.getLast?_map] at hn
      obtain ⟨y, hy, rfl⟩ := Option.map_eq_some_iff.mp hn
      exact hlast y hy

variable (hvalue : InTree s root value) (hexpression : (s.node value).isExpression = true)
include hvalue hexpression

omit htable hnode in
theorem Orderly.expression (ht : Orderly s root t) :
    Known s root t value ∧ (t.node value).isExpression = true :=
  ⟨.inl hvalue, ((ht.reshaped hs hvalue).test kindTest_isExpression).trans hexpression⟩

omit htable hnode in
theorem Orderly.addArrayRecord (ht : Orderly s root t)
    (hrun : Returns (Pass.add (.arrayRecord value)) ⟨t, ()⟩ x w) :
    ∃ t', w = ⟨t', ()⟩ ∧ Orderly s root t' ∧ Grows t t' ∧ Known s root t' x ∧
      t'.node x = .arrayRecord value := by
  refine ht.addNode hs rfl (fun c hc => ?_) ⟨_, rfl⟩ hrun
  obtain rfl : c = value := List.mem_singleton.mp hc
  exact ht.expression hs hvalue hexpression

theorem Orderly.addArrayItem (ht : Orderly s root t) {index : Nat} {b : Bool}
    (hrun : Returns (do
      let xs ← Pass.items a
      if xs.length < index then return false
      let record ← Pass.add (.arrayRecord value)
      if xs.isEmpty ∨ index = xs.length then Pass.setItems a (xs ++ [record])
      else Pass.setItems a (xs.set index record)
      return true) ⟨t, ()⟩ b w) : Adjusts s root (· = a) t w := by
  obtain ⟨xs, hxs, -⟩ := ht.arrayItems hs htable hnode
  obtain ⟨ys, w1, h1, hrun⟩ := hrun.bind
  obtain ⟨hys, rfl, -⟩ := items_inv h1
  obtain rfl : ys = xs := by
    rw [← hys, show (Work.mk t ()).store.node a = _ from hxs]
    rfl
  split at hrun
  · obtain ⟨-, rfl⟩ := hrun.pure
    exact .refl ht
  · obtain ⟨record, w2, h2, hrun⟩ := hrun.bind
    obtain ⟨t1, rfl, ht1, hgrows, hknown, hrecord⟩ := ht.addArrayRecord hs hvalue hexpression h2
    obtain ⟨zs, hzs, harrays⟩ := ht1.arrayItems hs htable hnode
    obtain rfl : ys = zs := by
      have := (hgrows.node_eq hxs (by simp)).symm.trans hzs
      cases this
      rfl
    have hnew : Known s root t1 record ∧ isArrayRecordNode (t1.node record) = true := by
      rw [hrecord]
      exact ⟨hknown, rfl⟩
    split at hrun
    all_goals
      obtain ⟨x, w3, h3, hrun⟩ := hrun.bind
      obtain ⟨-, rfl⟩ := hrun.pure
      refine (ht1.setArray hs htable hnode (fun y hy => ?_) h3).after hgrows.alters
    · cases List.mem_append.mp hy with
      | inl hy => exact harrays y hy
      | inr hy => exact List.mem_singleton.mp hy ▸ hnew
    · cases List.mem_or_eq_of_mem_set hy with
      | inl hy => exact harrays y hy
      | inr hy => exact hy ▸ hnew

theorem Orderly.insertArrayItem (ht : Orderly s root t) {index : Nat}
    (hrun : Returns (insertArrayItem a index value) ⟨t, ()⟩ b w) : Adjusts s root (· = a) t w := by
  obtain ⟨ys, w1, h1, hrun⟩ := hrun.bind
  obtain ⟨-, rfl, -⟩ := items_inv h1
  dsimp only at hrun
  split at hrun
  · obtain ⟨nil, w2, h2, hrun⟩ := hrun.bind
    obtain ⟨t2, rfl, ht2, hgrows2, hknown2, hnil⟩ :=
      ht.addNode hs rfl (fun c hc => by cases hc) ⟨_, rfl⟩ h2
    obtain ⟨record, w3, h3, hrun⟩ := hrun.bind
    obtain ⟨t3, rfl, ht3, hgrows3, hknown3, hrecord⟩ := ht2.addNode hs rfl (fun c hc => by
      rw [List.mem_singleton.mp hc, hnil]
      exact ⟨hknown2, rfl⟩) ⟨_, rfl⟩ h3
    obtain ⟨x, w4, h4, hrun⟩ := hrun.bind
    obtain ⟨zs, w5, h5, h4⟩ := h4.bind
    obtain ⟨hzs, rfl, -⟩ := items_inv h5
    obtain ⟨xs, hxs, harrays⟩ := ht3.arrayItems hs htable hnode
    obtain ⟨t4, rfl, ht4, halters⟩ := ht3.setArray hs htable hnode (fun y hy => by
      cases List.mem_append.mp hy with
      | inl hy =>
        rw [← hzs, show (Work.mk t3 ()).store.node a = _ from hxs] at hy
        exact harrays y hy
      | inr hy =>
        rw [List.mem_singleton.mp hy, hrecord]
        exact ⟨hknown3, rfl⟩) h4
    exact ((ht4.addArrayItem hs htable hnode hvalue hexpression hrun).after halters).after
      (hgrows2.trans hgrows3).alters
  · exact ht.addArrayItem hs htable hnode hvalue hexpression hrun

variable (hkey : InTree s root key) (hkeyed : (s.node key).isExpression = true)

include hkey hkeyed in
theorem Orderly.insertRecord (ht : Orderly s root t) (hrun : Returns (insertRecord r key value) ⟨t, ()⟩ u w) :
    Adjusts s root (· = r) t w := by
  obtain ⟨record, w1, h1, hrun⟩ := hrun.bind
  obtain ⟨t1, rfl, ht1, hgrows, hknown, hrecord⟩ := ht.addNode hs rfl (fun c hc => by
    rcases List.mem_pair.mp hc with rfl | rfl
    · exact ht.expression hs hkey hkeyed
    · exact ht.expression hs hvalue hexpression) ⟨_, rfl⟩ h1
  obtain ⟨ys, w2, h2, hrun⟩ := hrun.bind
  obtain ⟨hys, rfl, -⟩ := items_inv h2
  obtain ⟨xs, hxs, hitems, hrecords⟩ := ht1.recordItems hs htable hnode
  obtain rfl : ys = xs := by
    rw [← hys, show (Work.mk t1 ()).store.node r = _ from hxs]
    rfl
  have hopen : ∀ last, ys.getLast? = some last → isOpenEnd (t1.node last) = true →
      Returns (Pass.setItems r (ys.dropLast ++ record :: ys.drop (ys.length - 1))) ⟨t1, ()⟩ u w →
      Adjusts s root (· = r) t w := by
    intro last hlast hend hrun
    obtain ⟨zs, rfl⟩ := List.getLast?_eq_some_iff.mp hlast
    have hlist : (zs ++ [last]).dropLast ++ record :: (zs ++ [last]).drop ((zs ++ [last]).length - 1) =
        zs ++ [record] ++ [last] := by simp
    rw [hlist] at hrun
    refine (ht1.setRecordList hs htable hnode (fun y hy => ?_) ?_ hrun).after hgrows.alters
    · simp only [List.mem_append, List.mem_singleton] at hy
      rcases hy with (hy | rfl) | rfl
      · exact (hitems y (by simp [hy])).1
      · exact hknown
      · exact (hitems y (by simp)).1
    · rw [List.map_append, List.map_singleton, areRecords_append] at hrecords ⊢
      rw [List.map_append, List.map_singleton, List.all_append, List.all_cons, hrecord, hend]
      rw [Bool.and_eq_true] at hrecords
      simpa [isTableRecordNode] using hrecords.1
  have hclosed : (∀ x ∈ ys.getLast?, isOpenEnd (t1.node x) = false) →
      Returns (Pass.setItems r (ys ++ [record])) ⟨t1, ()⟩ u w → Adjusts s root (· = r) t w := by
    intro hlast hrun
    exact (ht1.appendRecord hs htable hnode hxs hknown (by rw [hrecord]; rfl) hlast hrun).after
      hgrows.alters
  dsimp only at hrun
  split at hrun
  · rename_i last hlast
    have hrun := hrun.atNode
    split at hrun
    · rename_i hn
      exact hopen last hlast (by rw [show t1.node last = _ from hn]; rfl) hrun
    · rename_i hn
      exact hopen last hlast (by rw [show t1.node last = _ from hn]; rfl) hrun
    · rename_i hcall hvararg
      refine hclosed (fun x hx => ?_) hrun
      obtain rfl : last = x := Option.some.inj (hlast.symm.trans hx)
      cases hn : t1.node last with
      | call f as => exact absurd hn (hcall f as)
      | vararg => exact absurd hn hvararg
      | _ => rfl
  · rename_i hlast
    refine hclosed (fun x hx => ?_) hrun
    rw [hlast] at hx
    cases hx

omit hexpression in
theorem Orderly.appendResults (ht : Orderly s root t) (hopen : isOpenEnd (s.node value) = true)
    {ys : List NodeId} (hys : (t.node r).items = ys) {u : Unit}
    (hrun : Returns (do
      let closed ← match ys.getLast? with
        | some last => do
          match ← node last with
          | .tableRecord .. => pure true
          | _ => pure false
        | none => pure true
      require closed "results of unknown number come last in a constructor"
      Pass.setItems r (ys ++ [value])) ⟨t, ()⟩ u w) : Adjusts s root (· = r) t w := by
  obtain ⟨xs, hxs, -⟩ := ht.recordItems hs htable hnode
  obtain rfl : xs = ys := by
    rw [← hys, hxs]
    rfl
  have hend := ht.appendRecord (u := u) (w := w) hs htable hnode hxs (.inl hvalue)
    (by rw [(ht.reshaped hs hvalue).test kindTest_isOpenEnd, hopen, Bool.or_true])
  have hrequire : ∀ {closed : Bool}, Returns (do
      let closed ← pure closed
      require closed "results of unknown number come last in a constructor"
      Pass.setItems r (xs ++ [value])) ⟨t, ()⟩ u w →
      closed = true ∧ Returns (Pass.setItems r (xs ++ [value])) ⟨t, ()⟩ u w := by
    intro closed hrun
    obtain ⟨b, w1, h1, hrun⟩ := hrun.bind
    obtain ⟨rfl, rfl⟩ := h1.pure
    obtain ⟨x, w2, h2, hrun⟩ := hrun.bind
    obtain ⟨hclosed, rfl⟩ := returns_require h2
    exact ⟨hclosed, hrun⟩
  split at hrun
  · rename_i last hlast
    have hrun := hrun.atNode
    split at hrun
    · rename_i hn
      refine hend (fun x hx => ?_) (hrequire hrun).2
      obtain rfl : last = x := Option.some.inj (hlast.symm.trans hx)
      rw [show t.node last = _ from hn]
      rfl
    · cases (hrequire hrun).1
  · rename_i hlast
    refine hend (fun x hx => ?_) (hrequire hrun).2
    rw [hlast] at hx
    cases hx

/-- An entry is added to a constructor. Results of unknown number are put at the end. -/
theorem Orderly.insertEntry (ht : Orderly s root t) (hkey : InTree s root key)
    (hkeyed : (s.node key).isExpression = true)
    (hresults : s.node key = .multres → isOpenEnd (s.node value) = true)
    (hrun : Returns (insertEntry table key value) ⟨t, ()⟩ u w) :
    Adjusts s root (fun i => i = a ∨ i = r) t w := by
  obtain ⟨⟨array, records⟩, w1, h1, hrun⟩ := hrun.bind
  have h1 := h1.atNode
  rw [show (Work.mk t ()).store.node table = _ from ht.tableNode hs htable hnode] at h1
  obtain ⟨heq, rfl⟩ := h1.pure
  cases heq
  obtain ⟨xs, w2, h2, hrun⟩ := hrun.bind
  obtain ⟨-, rfl, -⟩ := items_inv h2
  obtain ⟨ys, w3, h3, hrun⟩ := hrun.bind
  obtain ⟨hys, rfl, -⟩ := items_inv h3
  have hrun := hrun.atNode
  split at hrun
  · rename_i hmultres
    have hopen := hresults (ht.start hs hkey hmultres rfl)
    refine Adjusts.mono ?_ fun i hi => .inr hi
    exact ht.appendResults hs htable hnode hvalue hopen hys hrun
  · obtain ⟨index, w4, h4, hrun⟩ := hrun.bind
    cases arrayIndex_inv h4
    split at hrun
    · obtain ⟨done, w5, h5, hrun⟩ := hrun.bind
      have h5 := ht.insertArrayItem hs htable hnode hvalue hexpression h5
      split at hrun
      · obtain ⟨-, rfl⟩ := hrun.pure
        exact h5.mono fun i hi => .inl hi
      · obtain ⟨t1, rfl, ht1, halters⟩ := h5
        have hrecord := ht1.insertRecord hs htable hnode hvalue hexpression hkey hkeyed hrun
        exact (hrecord.mono fun i hi => .inr hi).after (halters.mono fun i _ hi => .inl hi)
    · exact (ht.insertRecord hs htable hnode hvalue hexpression hkey hkeyed hrun).mono fun i hi => .inr hi

end

/-! ## Looking without touching -/

theorem equal_inv {v v' : Work σ} (h : Returns (equal x y) v b v') : v' = v := by
  obtain ⟨_, v1, h1, h⟩ := h.bind
  obtain ⟨rfl, rfl⟩ := returns_get h1
  split at h
  · exact h.pure.2.symm
  · exact h.throw.elim

theorem store_forM {f : α → Pass σ Unit} (hf : ∀ x w u w', Returns (f x) w u w' → w'.store = w.store)
    {xs : List α} {w : Work σ} (h : Returns (xs.forM f) w u w') : w'.store = w.store := by
  induction xs generalizing w with
  | nil => exact congrArg Work.store h.pure.2.symm
  | cons x xs ih =>
    obtain ⟨_, w1, h1, h⟩ := h.bind
    exact (ih h).trans (hf x w _ w1 h1)

theorem store_walk {v : Visitor σ} (hadmits : ∀ i w b w', Returns (v.admits i) w b w' → w'.store = w.store)
    (henter : ∀ i w u w', Returns (v.enter i) w u w' → w'.store = w.store)
    (hleave : ∀ i w u w', Returns (v.leave i) w u w' → w'.store = w.store) {d : Nat} {w : Work σ}
    (h : Returns (walk v d i) w u w') : w'.store = w.store := by
  induction d generalizing i w w' u with
  | zero => exact h.throw.elim
  | succ d ih =>
    obtain ⟨b, w1, h1, h⟩ := walk_inv h
    have hw1 := hadmits _ _ _ _ h1
    cases h with
    | inl h => rw [h.2, hw1]
    | inr h =>
      obtain ⟨w2, w3, -, h2, h3, h4⟩ := h
      rw [hleave _ _ _ _ h4, store_forM (fun _ _ _ _ => ih) h3, henter _ _ _ _ h2, hw1]

theorem mentions_inv {v v' : Work Unit} (h : Returns (mentions xs y) v b v') : v' = v := by
  obtain ⟨⟨_, found⟩, v1, h1, h⟩ := h.bind
  obtain ⟨-, rfl⟩ := h.pure
  obtain ⟨v2, h2, -, rfl⟩ := within_inv h1
  obtain ⟨_, v3, h3, h2⟩ := h2.bind
  obtain ⟨rfl, rfl⟩ := returns_get h3
  have hstore : v2.store = v.store := by
    refine store_forM (fun i w u w' hwalk => store_walk ?_ ?_ ?_ hwalk) h2
    · intro i w b w' h
      obtain ⟨_, w1, h1, h⟩ := h.bind
      obtain ⟨-, rfl⟩ := own_inv h1
      rw [h.pure.2]
    · intro i w u w' h
      have h := h.atNode
      split at h
      · obtain ⟨same, w1, h1, h⟩ := h.bind
        cases equal_inv h1
        split at h
        · cases h
          rfl
        · rw [h.pure.2]
      · rw [h.pure.2]
    · intro i w u w' h
      rw [h.pure.2]
  rw [hstore]

/-! ## Assignments that follow a constructor -/

section
variable (hs : Tidyable s root) {i es ds : NodeId} {kind : AssignmentKind} (hi : InTree s root i)
  (hn : s.node i = .assignment kind es ds)
include hs hi hn

theorem Tidyable.values : InTree s root es ∧ isMutable (s.node es) = false ∧
    ∀ v ∈ (s.node es).items, InTree s root v ∧ (s.node v).isExpression = true := by
  have hparts := (hi.allows hs.valid).2
  rw [hn] at hparts
  have hes : InTree s root es := hi.child (by simp [hn, Node.children])
  obtain ⟨vs, hvs⟩ := isList_eq (allows_second.symm.trans (hparts es (by simp [Node.children])))
  refine ⟨hes, by rw [hvs]; rfl, fun v hv => ⟨hes.child ((items_sublist_children _).subset hv), ?_⟩⟩
  have hvalues := (hes.allows hs.valid).2
  rw [hvs] at hvalues hv
  exact hvalues v hv

theorem Tidyable.targets : InTree s root ds ∧ isMutable (s.node ds) = false ∧
    ∀ d ∈ (s.node ds).items, InTree s root d := by
  have hparts := (hi.allows hs.valid).2
  rw [hn] at hparts
  have hds : InTree s root ds := hi.child (by simp [hn, Node.children])
  obtain ⟨_, _, -, hfixed⟩ := destinations_fixed (hparts ds (by simp [Node.children]))
  exact ⟨hds, hfixed, fun d hd => hds.child ((items_sublist_children _).subset hd)⟩

theorem Tidyable.entry {d base : NodeId} (hds : (s.node ds).items = [d]) (hes : (s.node es).items = [value])
    (hd : s.node d = .element base key) :
    (InTree s root key ∧ (s.node key).isExpression = true) ∧
      (InTree s root value ∧ (s.node value).isExpression = true) ∧
      (s.node key = .multres → isOpenEnd (s.node value) = true) := by
  have hd' := (hs.targets hi hn).2.2 d (by simp [hds])
  have hkeyed := (hd'.allows hs.valid).2 key (by simp [hd, Node.children])
  rw [hd] at hkeyed
  refine ⟨⟨hd'.child (by simp [hd, Node.children]), hkeyed⟩, (hs.values hi hn).2.2 value (by simp [hes]), ?_⟩
  intro hmultres
  have htidy := hs.assignments i hi
  simpa [hn, isTidyAssignment, hds, hes, hd, hmultres] using htidy

end

theorem eq_singleton_of_mem {xs : List α} {x : α} (h : x ∈ xs) (hlen : xs.length ≤ 1) : xs = [x] := by
  cases xs with
  | nil => cases h
  | cons y ys =>
    obtain rfl : ys = [] := by simpa using hlen
    rw [List.mem_singleton.mp h]

/-- Assignments to elements of a table become entries of its constructor, from the first one on. -/
theorem Orderly.fillConstructor (hs : Tidyable s root) (htable : InTree s root table)
    (hnode : s.node table = .table a r) (ht : Orderly s root t) {target : NodeId}
    (hxs : ∀ x ∈ xs, InTree s root x) (hrun : Returns (fillConstructor target table xs) ⟨t, ()⟩ ys w) :
    Adjusts s root (fun i => i = a ∨ i = r) t w ∧ ys.Sublist xs := by
  induction xs generalizing t ys with
  | nil =>
    obtain ⟨rfl, rfl⟩ := hrun.pure
    exact ⟨.refl ht, .refl _⟩
  | cons x rest ih =>
    have hstay : ∀ {v : Work Unit}, Returns (pure (x :: rest) : Edit (List NodeId)) ⟨t, ()⟩ ys v →
        Adjusts s root (fun i => i = a ∨ i = r) t v ∧ ys.Sublist (x :: rest) := by
      intro v h
      obtain ⟨rfl, rfl⟩ := h.pure
      exact ⟨.refl ht, .refl _⟩
    have hx := hxs x List.mem_cons_self
    have hrun := hrun.atNode
    split at hrun
    · rename_i kind es ds hn
      have hstart := ht.start hs hx hn rfl
      obtain ⟨hes', hes, -⟩ := hs.values hx hstart
      obtain ⟨hds', hds, hdestinations⟩ := hs.targets hx hstart
      obtain ⟨targets, w1, h1, hrun⟩ := hrun.bind
      obtain ⟨htargets, rfl, -⟩ := items_inv h1
      split at hrun
      · exact hstay hrun
      · obtain ⟨d, w2, h2, hrun⟩ := hrun.bind
        obtain ⟨rfl, hd⟩ := firstItem_inv h2
        have hone : (s.node ds).items = [d] := by
          rw [← ht.same hs hds' hds]
          exact eq_singleton_of_mem hd (by rw [htargets]; omega)
        have hrun := hrun.atNode
        split at hrun
        · rename_i base key helement
          obtain ⟨same, w3, h3, hrun⟩ := hrun.bind
          cases equal_inv h3
          split at hrun
          · obtain ⟨values, w4, h4, hrun⟩ := hrun.bind
            obtain ⟨hvalues, rfl, -⟩ := items_inv h4
            split at hrun
            · rename_i value
              obtain ⟨found, w5, h5, hrun⟩ := hrun.bind
              cases mentions_inv h5
              split at hrun
              · exact hstay hrun
              · obtain ⟨_, w6, h6, hrun⟩ := hrun.bind
                have helement' := ht.start hs (hdestinations d (by simp [hone])) helement rfl
                obtain ⟨⟨hkey, hkeyed⟩, ⟨hvalue, hexpression⟩, hresults⟩ :=
                  hs.entry hx hstart hone (ht.same hs hes' hes ▸ hvalues) helement'
                obtain ⟨t', rfl, ht', halters⟩ :=
                  ht.insertEntry hs htable hnode hvalue hexpression hkey hkeyed hresults h6
                obtain ⟨hrest, hsub⟩ := ih ht' (fun y hy => hxs y (List.mem_cons_of_mem _ hy)) hrun
                exact ⟨hrest.after halters, hsub.cons _⟩
            · exact hrun.throw.elim
          · exact hstay hrun
        · exact hstay hrun
    · exact hstay hrun

/-- The lists of the constructors that a statement assigns. -/
def FilledBy (s : Store) (x i : NodeId) : Prop :=
  ∃ kind es ds table a r, s.node x = .assignment kind es ds ∧ table ∈ (s.node es).items ∧
    s.node table = .table a r ∧ (i = a ∨ i = r)

/-- The constructors among statements are filled. The statements that assign them stay. -/
theorem Orderly.foldAssignments (hs : Tidyable s root) (ht : Orderly s root t) {fuel : Nat}
    (hxs : ∀ x ∈ xs, InTree s root x) (hrun : Returns (foldAssignments fuel xs) ⟨t, ()⟩ ys w) :
    Adjusts s root (fun i => ∃ x ∈ ys, FilledBy s x i) t w ∧ ys.Sublist xs := by
  induction fuel generalizing t xs ys with
  | zero =>
    cases xs with
    | nil =>
      obtain ⟨rfl, rfl⟩ := hrun.pure
      exact ⟨.refl ht, .refl _⟩
    | cons x xs =>
      obtain ⟨rfl, rfl⟩ := hrun.pure
      exact ⟨.refl ht, .refl _⟩
  | succ fuel ih =>
    cases xs with
    | nil =>
      obtain ⟨rfl, rfl⟩ := hrun.pure
      exact ⟨.refl ht, .refl _⟩
    | cons x rest =>
      -- The rest may be shortened and constructors of `x` filled before the rest is folded.
      have hstep : ∀ {t' : Store} {kept : List NodeId}, Orderly s root t' → kept.Sublist rest →
          Alters (FilledBy s x) t t' → Returns (do
            let rest ← pure kept
            return x :: (← Tidy.foldAssignments fuel rest)) ⟨t', ()⟩ ys w →
          Adjusts s root (fun i => ∃ x ∈ ys, FilledBy s x i) t w ∧ ys.Sublist (x :: rest) := by
        intro t' kept ht' hsub halters h
        obtain ⟨_, w1, h1, h⟩ := h.bind
        obtain ⟨rfl, rfl⟩ := h1.pure
        obtain ⟨zs, w2, h2, h⟩ := h.bind
        obtain ⟨rfl, rfl⟩ := h.pure
        obtain ⟨hfold, hzs⟩ := ih ht' (fun y hy => hxs y (List.mem_cons_of_mem _ (hsub.subset hy))) h2
        refine ⟨?_, (hzs.trans hsub).cons_cons x⟩
        refine (hfold.mono ?_).after (halters.mono ?_)
        · rintro i ⟨y, hy, hi⟩
          exact ⟨y, List.mem_cons_of_mem _ hy, hi⟩
        · exact fun i _ hi => ⟨x, List.mem_cons_self, hi⟩
      have hx := hxs x List.mem_cons_self
      have hrun := hrun.atNode
      split at hrun
      · rename_i kind es ds hn
        have hstart := ht.start hs hx hn rfl
        obtain ⟨hes', hes, hvalues⟩ := hs.values hx hstart
        obtain ⟨value, w1, h1, hrun⟩ := hrun.bind
        obtain ⟨rfl, hvalue⟩ := firstItem_inv h1
        rw [show (Work.mk t ()).store.node es = _ from ht.same hs hes' hes] at hvalue
        have hrun := hrun.atNode
        split at hrun
        · rename_i a r htable
          obtain ⟨targets, w2, h2, hrun⟩ := hrun.bind
          obtain ⟨htargets, rfl, -⟩ := items_inv h2
          split at hrun
          · rename_i target
            obtain ⟨kept, w3, h3, hrun⟩ := hrun.bind
            have htable' := ht.start hs (hvalues value hvalue).1 htable rfl
            obtain ⟨⟨t', rfl, ht', halters⟩, hsub⟩ := ht.fillConstructor hs (hvalues value hvalue).1 htable'
              (fun y hy => hxs y (List.mem_cons_of_mem _ hy)) h3
            refine hstep ht' hsub (halters.mono fun i _ hi => ?_) hrun
            exact ⟨kind, es, ds, value, a, r, hstart, hvalue, htable', hi⟩
          · exact hrun.throw.elim
        · exact hstep ht (.refl _) (.refl _ _) hrun
      · exact hstep ht (.refl _) (.refl _ _) hrun

end LuaLift.Proofs
