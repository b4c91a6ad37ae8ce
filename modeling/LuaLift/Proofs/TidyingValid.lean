import LuaLift.Proofs.Checking
import LuaLift.Proofs.Filling

/-! # Tidied trees are valid

A constructor could be filled with a value that holds the constructor itself; then tidying would
go on for ever. As it ends, no chain of parts below the tree goes on for ever: after the walk
through a node both the node and all nodes that were changed on the way are `Grounded`
(`walked_of_walk`). A store in order without endless chains is valid. -/
namespace LuaLift.Proofs
open Tree Pass Tidy

variable {s t t' t'' : Store} {root i j c : NodeId} {w : Work Unit}

/-! ## Endless chains -/

/-- No chain of parts below a node goes on for ever. -/
def Grounded (t : Store) (i : NodeId) : Prop := Acc (fun c i => c ∈ (t.node i).children) i

theorem Grounded.part (h : Grounded t i) (hc : c ∈ (t.node i).children) : Grounded t c := h.inv hc

theorem Grounded.below (h : Grounded t i) (hj : InTree t i j) : Grounded t j := by
  induction hj with
  | root => exact h
  | child _ hc ih => exact ih.part hc

/-- A node does not stand below its own parts. -/
theorem Grounded.not_below (h : Grounded t i) (hc : c ∈ (t.node i).children) : ¬ InTree t c i := by
  induction h generalizing c with
  | intro i _ ih =>
    intro hi
    cases hi.top with
    | inl hi =>
      subst hi
      exact ih i hc hc .root
    | inr hi =>
      obtain ⟨b, hb, hi⟩ := hi
      exact ih c hc hb (hi.child hc)

/-- Chains stay finite if those below the nodes that have changed are. -/
theorem Grounded.carry {K : NodeId → Prop} (hclosed : ∀ i, K i → ∀ c ∈ (t.node i).children, K c)
    (hchanged : ∀ i, K i → t'.node i ≠ t.node i → Grounded t' i) (hi : K i) (h : Grounded t i) :
    Grounded t' i := by
  induction h with
  | intro i _ ih =>
    by_cases hsame : t'.node i = t.node i
    · refine ⟨i, fun c hc => ?_⟩
      rw [hsame] at hc
      exact ih c hc (hclosed i hi c hc)
    · exact hchanged i hi hsame

/-- A node stands below another one, and is not that node itself. -/
def Beneath (t : Store) (i j : NodeId) : Prop := ∃ x ∈ (t.node i).children, InTree t x j

/-- Below a node nothing changes when the node changes, as it does not stand there. So it can take
over what stood below its parts. -/
theorem grounded_of_adopted {K : NodeId → Prop} (hclosed : ∀ i, K i → ∀ c ∈ (t.node i).children, K c)
    (hkept : ∀ j, K j → j ≠ i → t'.node j = t.node j) (hi : K i) (hg : Grounded t i)
    (hparts : ∀ y ∈ (t'.node i).children, Beneath t i y ∨ ∀ z ∈ (t'.node y).children, Beneath t i z) :
    Grounded t' i := by
  have hbeneath : ∀ y, Beneath t i y → Grounded t' y := by
    rintro y ⟨x, hx, hy⟩
    have hknown : ∀ {j}, InTree t x j → K j := by
      intro j hj
      induction hj with
      | root => exact hclosed i hi x hx
      | child _ hk ih => exact hclosed _ ih _ hk
    refine Grounded.carry (K := fun j => K j ∧ InTree t x j)
      (fun j hj k hk => ⟨hclosed j hj.1 k hk, hj.2.child hk⟩) (fun j hj hne => ?_) ⟨hknown hy, hy⟩
      ((hg.part hx).below hy)
    refine absurd (hkept j hj.1 ?_) hne
    rintro rfl
    exact hg.not_below hx hj.2
  refine ⟨i, fun y hy => ?_⟩
  cases hparts y hy with
  | inl hy => exact hbeneath y hy
  | inr hy => exact ⟨y, fun z hz => hbeneath z (hy z hz)⟩

/-! ## Walks that end -/

/-- A walk leaves the store in order, with no endless chain below what it has changed. -/
structure Walked (s : Store) (root : NodeId) (t t' : Store) : Prop where
  orderly : Orderly s root t'
  size : t.cells.size ≤ t'.cells.size
  changed : ∀ i, Known s root t i → t'.node i ≠ t.node i → Grounded t' i

theorem Walked.refl (ht : Orderly s root t) : Walked s root t t :=
  ⟨ht, Nat.le_refl _, fun _ _ h => absurd rfl h⟩

theorem Walked.carry (h : Walked s root t t') (ht : Orderly s root t) (hi : Known s root t i)
    (hg : Grounded t i) :
    Grounded t' i :=
  hg.carry (fun i hi c hc => ((ht.fits i hi).parts c hc).1) h.changed hi

theorem Walked.trans (h : Walked s root t t') (h' : Walked s root t' t'') : Walked s root t t'' := by
  refine ⟨h'.orderly, Nat.le_trans h.size h'.size, fun i hi hne => ?_⟩
  by_cases hsame : t''.node i = t'.node i
  · exact h'.carry h.orderly (hi.mono h.size) (h.changed i hi (hsame ▸ hne))
  · exact h'.changed i (hi.mono h.size) hsame

theorem walked_forM {f : NodeId → Edit Unit}
    (hf : ∀ {t w x}, Orderly s root t → Known s root t x → Returns (f x) ⟨t, ()⟩ () w →
      ∃ t', w = ⟨t', ()⟩ ∧ Walked s root t t' ∧ Grounded t' x) {xs : List NodeId} (ht : Orderly s root t)
    (hxs : ∀ x ∈ xs, Known s root t x) (hrun : Returns (xs.forM f) ⟨t, ()⟩ () w) :
    ∃ t', w = ⟨t', ()⟩ ∧ Walked s root t t' ∧ ∀ x ∈ xs, Grounded t' x := by
  induction xs generalizing t with
  | nil =>
    obtain ⟨-, rfl⟩ := hrun.pure
    exact ⟨t, rfl, .refl ht, by simp⟩
  | cons x xs ih =>
    obtain ⟨_, w1, h1, hrun⟩ := hrun.bind
    obtain ⟨t1, rfl, hwalked, hx⟩ := hf ht (hxs x List.mem_cons_self) h1
    obtain ⟨t2, rfl, hwalked', hall⟩ := ih hwalked.orderly
      (fun y hy => (hxs y (List.mem_cons_of_mem _ hy)).mono hwalked.size) hrun
    refine ⟨t2, rfl, hwalked.trans hwalked', fun y hy => ?_⟩
    cases List.mem_cons.mp hy with
    | inl hy =>
      rw [hy]
      exact hwalked'.carry hwalked.orderly ((hxs x List.mem_cons_self).mono hwalked.size) hx
    | inr hy => exact hall y hy

section
variable (hs : Tidyable s root) (ht : Orderly s root t)
include hs ht

/-- When a list of statements is entered, what changes is the list and the constructors that the
statements left in it assign. -/
theorem Orderly.enter (hi : Known s root t i) (hrun : Returns (visitor.enter i) ⟨t, ()⟩ () w) :
    ∃ t', w = ⟨t', ()⟩ ∧ Orderly s root t' ∧ t.cells.size ≤ t'.cells.size ∧
      ∀ j, Known s root t j → t'.node j ≠ t.node j →
        j = i ∨ ∃ x ∈ (t'.node i).children, InTree s root x ∧ FilledBy s x j := by
  have hrun := hrun.atNode
  split at hrun
  · rename_i xs hn
    have hi' : InTree s root i := ht.inTree_of_added hi (by rw [show t.node i = _ from hn]; rfl)
    have hparts := (ht.fits i hi).parts
    rw [show t.node i = _ from hn] at hparts
    have hxs : ∀ x ∈ xs, InTree s root x := fun x hx => by
      refine ht.inTree_of_added (hparts x hx).1 ?_
      have hstatement : (t.node x).isStatement = true := (hparts x hx).2
      cases hx' : t.node x <;> first | rfl | simp [hx', Node.isStatement] at hstatement
    obtain ⟨ys, w1, h1, hrun⟩ := hrun.bind
    obtain ⟨⟨t1, rfl, ht1, halters⟩, hsub⟩ := ht.foldAssignments hs hxs h1
    have hkind : ∀ {f : Node → Bool} {x}, KindTest f → InTree s root x → f (t1.node x) = f (t.node x) := by
      intro f x hf hx
      rw [(ht1.reshaped hs hx).test hf, (ht.reshaped hs hx).test hf]
    obtain ⟨zs, hzs⟩ : ∃ zs, t1.node i = .list .statements zs := by
      refine isList_eq ((hkind (kindTest_isList .statements) hi').trans ?_)
      rw [show t.node i = _ from hn]
      rfl
    have hself : (t1.setNode i (.list .statements ys)).node i = .list .statements ys :=
      node_setNode_self (inside_of_node (by rw [hzs]; simp))
    have htidied : Orderly s root (t1.setNode i (.list .statements ys)) := by
      refine ht1.setNode hs hi' (hzs ▸ .statements) ⟨fun x hx => ?_, ⟨_, rfl⟩, rfl⟩ fun j a r hj hnj => ?_
      · have hx' := hsub.subset hx
        exact ⟨.inl (hxs x hx'), (hkind kindTest_isStatement (hxs x hx')).trans (hparts x hx').2⟩
      · -- lists of a constructor are no lists of statements
        have hother : ∀ y, y = a ∨ y = r → y ≠ i := by
          rintro y hy rfl
          obtain ⟨-, _, hlist, -⟩ := ht1.tableLists hs hj hnj hy
          cases hzs.symm.trans hlist
        exact ⟨fun h => absurd h (hother a (.inl rfl)), fun h => absurd h (hother r (.inr rfl))⟩
    refine ⟨_, setItems_inv hrun hzs, htidied, ?_, fun j hj hne => ?_⟩
    · rw [size_setNode]
      exact halters.size
    · by_cases hji : j = i
      · exact .inl hji
      · right
        rw [node_setNode_of_ne hji] at hne
        rw [hself]
        by_contra hno
        refine hne (halters.node (ht.present hs hj) fun hfilled => hno ?_)
        obtain ⟨x, hx, hfilled⟩ := hfilled
        exact ⟨x, hx, hxs x (hsub.subset hx), hfilled⟩
  · obtain ⟨-, rfl⟩ := hrun.pure
    exact ⟨t, rfl, ht, Nat.le_refl _, fun j _ h => absurd rfl h⟩

/-- A choice takes over the branches of the only statement in its `else`, which is a choice itself.
What was below the inner choice is below the outer one, so no chain gets endless. -/
theorem Orderly.flatten (hi : Known s root t i) (hg : Grounded t i) {b e only c' b' e' branch : NodeId}
    {xs xs' : List NodeId} (hn : t.node i = .ifElse c b xs e) (honly : only ∈ (t.node e).children)
    (hn' : t.node only = .ifElse c' b' xs' e') {w1 : Work Unit}
    (hadd : Returns (Pass.add (.elseIf c' b')) ⟨t, ()⟩ branch w1)
    (hset : Returns (Pass.setNode i (.ifElse c b (xs ++ branch :: xs') e')) w1 () w) :
    ∃ t', w = ⟨t', ()⟩ ∧ Walked s root t t' ∧ Grounded t' i := by
  have he : e ∈ (t.node i).children := by simp [hn, Node.children]
  have hknown : Known s root t only := ((ht.fits e ((ht.fits i hi).parts e he).1).parts only honly).1
  have hinner : ChoiceParts s root t c' b' xs' e' := (hn' ▸ ht.fits only hknown).choiceParts
  obtain ⟨t1, rfl, ht1, hgrows, hbranch, hbranch'⟩ := ht.addNode hs rfl hinner.branch ⟨_, rfl⟩ hadd
  have hi' : InTree s root i := ht.inTree_of_added hi (by rw [hn]; rfl)
  have hn1 : t1.node i = .ifElse c b xs e := hgrows.node_eq hn (by simp)
  have houter1 : ChoiceParts s root t1 c b xs e := (hn1 ▸ ht1.fits i (.inl hi')).choiceParts
  have hinner1 : ChoiceParts s root t1 c' b' xs' e' :=
    ((hgrows.node_eq hn' (by simp)) ▸ ht1.fits only (hknown.mono hgrows.size)).choiceParts
  have hparts : ChoiceParts s root t1 c b (xs ++ branch :: xs') e' := by
    refine ⟨houter1.condition, houter1.thenBlock, fun x hx => ?_, hinner1.elseBlock⟩
    simp only [List.mem_append, List.mem_cons] at hx
    obtain hx | rfl | hx := hx
    · exact houter1.elseIfs x hx
    · exact ⟨hbranch, by rw [hbranch']; rfl⟩
    · exact hinner1.elseIfs x hx
  have htidied : Orderly s root (t1.setNode i (.ifElse c b (xs ++ branch :: xs') e')) := by
    refine ht1.setNode hs hi' (hn1 ▸ .choice) hparts.formed fun j a r hj hnj => ?_
    have hother : ∀ y, y = a ∨ y = r → y ≠ i := by
      rintro y hy rfl
      obtain ⟨-, _, hlist, -⟩ := ht1.tableLists hs hj hnj hy
      cases hn1.symm.trans hlist
    exact ⟨fun h => absurd h (hother a (.inl rfl)), fun h => absurd h (hother r (.inr rfl))⟩
  cases returns_setNode hset
  have hself : (t1.setNode i (.ifElse c b (xs ++ branch :: xs') e')).node i = _ :=
    node_setNode_self (inside_of_node (by rw [hn1]; simp))
  have hkept : ∀ j, Known s root t j → j ≠ i →
      (t1.setNode i (.ifElse c b (xs ++ branch :: xs') e')).node j = t.node j := by
    intro j hj hji
    rw [node_setNode_of_ne hji, hgrows.node (ht.present hs hj)]
  have hfar : ∀ y ∈ (t.node only).children, Beneath t i y :=
    fun y hy => ⟨e, he, (InTree.root.child honly).child hy⟩
  have hground : Grounded (t1.setNode i (.ifElse c b (xs ++ branch :: xs') e')) i := by
    refine grounded_of_adopted (fun j hj k hk => ((ht.fits j hj).parts k hk).1) hkept hi hg fun y hy => ?_
    rw [hself] at hy
    simp only [Node.children, List.cons_append, List.mem_cons, List.mem_append, List.not_mem_nil, or_false,
      List.append_assoc] at hy
    obtain rfl | rfl | hy | rfl | hy | rfl := hy
    · exact .inl ⟨y, by simp [hn, Node.children], .root⟩
    · exact .inl ⟨y, by simp [hn, Node.children], .root⟩
    · exact .inl ⟨y, by simp [hn, Node.children, hy], .root⟩
    · refine .inr fun z hz => hfar z ?_
      have hyi : y ≠ i := by
        rintro rfl
        cases hbranch'.symm.trans hn1
      rw [node_setNode_of_ne hyi, hbranch'] at hz
      rcases List.mem_pair.mp hz with rfl | rfl
      · simp [hn', Node.children]
      · simp [hn', Node.children]
    · exact .inl (hfar y (by simp [hn', Node.children, hy]))
    · exact .inl (hfar y (by simp [hn', Node.children]))
  refine ⟨_, rfl, ⟨htidied, ?_, fun j hj hne => ?_⟩, hground⟩
  · rw [size_setNode]
    exact hgrows.size
  · by_cases hji : j = i
    · rw [hji]
      exact hground
    · exact absurd (hkept j hj hji) hne

theorem Orderly.leave (hi : Known s root t i) (hg : Grounded t i)
    (hrun : Returns (visitor.leave i) ⟨t, ()⟩ () w) :
    ∃ t', w = ⟨t', ()⟩ ∧ Walked s root t t' ∧ Grounded t' i := by
  have hidle : ∀ {v : Work Unit}, Returns (pure () : Edit Unit) ⟨t, ()⟩ () v →
      ∃ t', v = ⟨t', ()⟩ ∧ Walked s root t t' ∧ Grounded t' i := by
    intro v h
    obtain ⟨-, rfl⟩ := h.pure
    exact ⟨t, rfl, .refl ht, hg⟩
  have hrun := hrun.atNode
  split at hrun
  · rename_i c b xs e hn
    obtain ⟨ys, w1, h1, hrun⟩ := hrun.bind
    obtain ⟨hys, rfl, -⟩ := items_inv h1
    split at hrun
    · rename_i only
      have hrun := hrun.atNode
      split at hrun
      · rename_i c' b' xs' e' hn'
        obtain ⟨branch, w2, h2, hrun⟩ := hrun.bind
        refine ht.flatten hs hi hg hn ?_ hn' h2 hrun
        refine (items_sublist_children _).subset ?_
        rw [show (t.node e).items = _ from hys]
        exact List.mem_singleton_self only
      · exact hidle hrun
    · exact hidle hrun
  · exact hidle hrun

theorem Orderly.filled_below {x : NodeId} (hx : InTree s root x) (h : FilledBy s x j) : InTree t x j := by
  obtain ⟨kind, es, ds, table, a, r, hassign, htable, hnode, hj⟩ := h
  obtain ⟨hes, hfixed, hvalues⟩ := hs.values hx hassign
  have hx' : t.node x = .assignment kind es ds := (ht.same hs hx (by rw [hassign]; rfl)).trans hassign
  have htable' := ht.tableNode hs (hvalues table htable).1 hnode
  have hes' : InTree t x es := InTree.root.child (by simp [hx', Node.children])
  have hvalue : InTree t x table := by
    refine hes'.child ((items_sublist_children _).subset ?_)
    rw [ht.same hs hes hfixed]
    exact htable
  refine hvalue.child ?_
  rw [htable']
  simpa [Node.children] using hj

/-- The walk through a node ends in a store that is in order, with no endless chain below the node
and below what has changed. -/
theorem walked_of_walk {d : Nat} (hi : Known s root t i) (hrun : Returns (walk visitor d i) ⟨t, ()⟩ () w) :
    ∃ t', w = ⟨t', ()⟩ ∧ Walked s root t t' ∧ Grounded t' i := by
  induction d generalizing t i w with
  | zero => exact hrun.throw.elim
  | succ d ih =>
    obtain ⟨admitted, w1, h1, hrun⟩ := walk_inv hrun
    obtain ⟨rfl, rfl⟩ := h1.pure
    obtain ⟨hno, -⟩ | ⟨w2, w3, -, henter, hparts, hleave⟩ := hrun
    · cases hno
    obtain ⟨t1, rfl, ht1, hsize1, hchanged1⟩ := ht.enter hs hi henter
    have hi1 := hi.mono hsize1
    obtain ⟨t2, rfl, hwalked, hgrounded⟩ := walked_forM (fun ht hx h => ih ht hx h) ht1
      (fun x hx => ((ht1.fits i hi1).parts x hx).1) hparts
    have hg : Grounded t2 i := by
      by_cases hsame : t2.node i = t1.node i
      · exact ⟨i, fun c hc => hgrounded c (hsame ▸ hc)⟩
      · exact hwalked.changed i hi1 hsame
    have hwalked2 : Walked s root t t2 := by
      refine ⟨hwalked.orderly, Nat.le_trans hsize1 hwalked.size, fun j hj hne => ?_⟩
      by_cases hsame : t2.node j = t1.node j
      · obtain rfl | ⟨x, hx, hx', hfilled⟩ := hchanged1 j hj (hsame ▸ hne)
        · exact hg
        · exact (hgrounded x hx).below (hwalked.orderly.filled_below hs hx' hfilled)
      · exact hwalked.changed j (hj.mono hsize1) hsame
    obtain ⟨t3, rfl, hwalked3, hg3⟩ :=
      hwalked2.orderly.leave hs (hi.mono hwalked2.size) hg hleave
    exact ⟨t3, rfl, hwalked2.trans hwalked3, hg3⟩

end

/-! ## Valid trees -/

theorem orderly_start (hs : Tidyable s root) : Orderly s root s := by
  have hknown : ∀ i, Known s root s i → InTree s root i :=
    fun i hi => hi.elim id fun h => absurd h.2 (Nat.not_lt.mpr h.1)
  refine ⟨Nat.le_refl _, fun _ _ => .same, fun i hlo hhi => absurd hhi (Nat.not_lt.mpr hlo),
    fun i hi => ?_, hs.tables⟩
  have hi' := hknown i hi
  obtain ⟨d, -, rule, hcheck⟩ := hi'.check hs.valid
  obtain ⟨-, -, r, hr, -⟩ := checkPart_ok hcheck
  exact ⟨fun c hc => ⟨.inl (hi'.child hc), (hi'.allows hs.valid).2 c hc⟩, ⟨r, hr⟩, hs.choices i hi'⟩

/-- A check goes down chains of different nodes only, so it need not go deeper than the store is large. -/
theorem checkPart_of_grounded (hs : Tidyable s root) (ht : Orderly s root t)
    {rule : Option PartRule} {d : Nat}
    {above : List NodeId} (hi : Known s root t i) (hrule : ∀ r, rule = some r → r.allows i (t.node i) = true)
    (hnodup : above.Nodup) (habove : ∀ x ∈ above, t.node x ≠ .absent ∧ Grounded t x ∧ Beneath t x i)
    (hg : Grounded t i) (hd : t.cells.size < d + above.length) : checkPart t false d rule i = .ok () := by
  induction d generalizing i rule above with
  | zero =>
    have := length_le_size hnodup fun x hx => (habove x hx).1
    omega
  | succ d ih =>
    obtain ⟨r, hr⟩ := (ht.fits i hi).rule
    have hpresent := ht.present hs hi
    have hfresh : i ∉ above := fun hmem => by
      obtain ⟨-, hg, x, hx, hbelow⟩ := habove i hmem
      exact hg.not_below hx hbelow
    refine checkPart_succ hrule hpresent hr fun c hc => ?_
    obtain ⟨hknown, hallows⟩ := (ht.fits i hi).parts c hc
    have hallows' : ∀ r', some r = some r' → r'.allows c (t.node c) = true := by
      intro r' hr'
      rw [← Option.some.inj hr', partRule_eq_ok hr]
      exact hallows
    -- The node joins those above, as none of them stands below itself.
    have habove' : ∀ x ∈ i :: above, t.node x ≠ .absent ∧ Grounded t x ∧ Beneath t x c := by
      intro x hx
      cases List.mem_cons.mp hx with
      | inl hx => exact hx ▸ ⟨hpresent, hg, c, hc, .root⟩
      | inr hx =>
        obtain ⟨hx, hgx, y, hy, hi⟩ := habove x hx
        exact ⟨hx, hgx, y, hy, hi.child hc⟩
    exact ih hknown hallows' (List.nodup_cons.mpr ⟨hfresh, hnodup⟩) habove' (hg.part hc)
      (by simp only [List.length_cons]; omega)

theorem returns_of_run {p : Edit Unit} (h : p.run' s = (.ok (), t)) : Returns p ⟨s, ()⟩ () ⟨t, ()⟩ := by
  unfold Edit.run' at h
  split at h
  · rename_i hrun
    cases h
    exact hrun
  · cases h

/-- A tidied tree is valid, and its constructors are as they were asked to be. -/
theorem tidy_valid (hs : Tidyable s root) (hrun : (tidy root).run' s = (.ok (), t)) :
    t.validate false root = .ok () ∧ ∀ i, InTree t root i → isTidyTable t (t.node i) = true := by
  obtain ⟨_, w, h, hrun⟩ := (returns_of_run hrun).bind
  obtain ⟨rfl, rfl⟩ := returns_get h
  obtain ⟨t, hw, hwalked, hg⟩ := walked_of_walk hs (orderly_start hs) (.inl .root) hrun
  cases hw
  have ht := hwalked.orderly
  refine ⟨?_, fun i hi => ?_⟩
  · exact checkPart_of_grounded hs ht (.inl .root) (by simp) .nil (by simp) hg (by simp [Store.depth]; omega)
  · have hknown : Known s root t i := by
      induction hi with
      | root => exact .inl .root
      | child _ hc ih => exact ((ht.fits _ ih).parts _ hc).1
    cases hn : t.node i with
    | table a r =>
      exact hn ▸ ht.tables i (ht.inTree_of_added hknown (by rw [hn]; rfl))
    | _ => rfl

/-- A constructor whose fields are assigned after it, and a choice in the `else` of another one. -/
def filledLater : Store := numbered [
  .identifier { kind := .named, slot := 0, name := some "t" },
  .identifier { kind := .named, slot := 1, name := some "a" },
  .list .targets [⟨1⟩],
  .list .records [],
  .list .records [],
  .table ⟨4⟩ ⟨5⟩,
  .list .expressions [⟨6⟩],
  .assignment .normal ⟨7⟩ ⟨3⟩,
  .constant .integer (.number (.int 1)),
  .element ⟨1⟩ ⟨9⟩,
  .list .targets [⟨10⟩],
  .list .expressions [⟨2⟩],
  .assignment .normal ⟨12⟩ ⟨11⟩,
  .constant .text (.text "k"),
  .element ⟨1⟩ ⟨14⟩,
  .list .targets [⟨15⟩],
  .assignment .normal ⟨12⟩ ⟨16⟩,
  .multres,
  .element ⟨1⟩ ⟨18⟩,
  .list .targets [⟨19⟩],
  .list .expressions [],
  .call ⟨2⟩ ⟨21⟩,
  .list .expressions [⟨22⟩],
  .assignment .normal ⟨23⟩ ⟨20⟩,
  .ret ⟨21⟩,
  .list .statements [⟨25⟩],
  .list .statements [],
  .ifElse ⟨2⟩ ⟨26⟩ [] ⟨27⟩,
  .list .statements [⟨28⟩],
  .ifElse ⟨1⟩ ⟨26⟩ [] ⟨29⟩,
  .list .statements [⟨8⟩, ⟨13⟩, ⟨17⟩, ⟨24⟩, ⟨30⟩],
  .list .identifiers [],
  .function ⟨32⟩ ⟨31⟩ {}]

theorem tidy_valid_filledLater :
    Tidyable filledLater ⟨33⟩ ∧ ∃ t, (tidy ⟨33⟩).run' filledLater = (.ok (), t) ∧
      t.node ⟨31⟩ = .list .statements [⟨8⟩, ⟨30⟩] ∧ t.node ⟨30⟩ = .ifElse ⟨1⟩ ⟨26⟩ [⟨38⟩] ⟨27⟩ ∧
      t.validate false ⟨33⟩ = .ok () ∧ ∀ i, InTree t ⟨33⟩ i → isTidyTable t (t.node i) = true := by
  have hs : Tidyable filledLater ⟨33⟩ := by
    refine ⟨by decide +kernel, fun i _ => ?_, fun i _ => ?_, fun i _ => ?_, ?_⟩
    · exact forall_node (P := fun n => isTidyTable filledLater n = true) rfl (by decide +kernel) i
    · exact forall_node (P := fun n => isTidyAssignment filledLater n = true) rfl (by decide +kernel) i
    · exact forall_node (P := fun n => isTidyChoice filledLater n = true) rfl (by decide +kernel) i
    · have htable : ∀ i, ∀ a r, filledLater.node i = .table a r → a = ⟨4⟩ ∧ r = ⟨5⟩ :=
        forall_node (P := fun n => ∀ a r, n = .table a r → a = ⟨4⟩ ∧ r = ⟨5⟩) (by simp)
          (by simp [filledLater, numbered])
      intro i j a r a' r' _ _ hi hj
      rw [(htable i a r hi).1, (htable j a' r' hj).2]
      decide
  have hrun : (tidy ⟨33⟩).run' filledLater = (.ok (), ((tidy ⟨33⟩).run' filledLater).2) :=
    Prod.ext (by decide +kernel) rfl
  exact ⟨hs, _, hrun, by decide +kernel, by decide +kernel, tidy_valid hs hrun⟩

/-- The tree is valid and has the constructors and assignments that are asked of it, and is not
valid any more once it is tidied. -/
structure Spoiled (s : Store) (root : NodeId) : Prop where
  valid : s.validate false root = .ok ()
  tables : ∀ i, InTree s root i → isTidyTable s (s.node i) = true
  assignments : ∀ i, InTree s root i → isTidyAssignment s (s.node i) = true
  finishes : ((tidy root).run' s).1 = .ok ()
  invalid : ((tidy root).run' s).2.validate false root ≠ .ok ()

theorem spoiled_of_cells (hvalid : s.validate false root = .ok ())
    (hcells : ∀ c ∈ s.cells.toList, isTidyTable s c.node = true ∧ isTidyAssignment s c.node = true)
    (hfinishes : ((tidy root).run' s).1 = .ok ())
    (hinvalid : ((tidy root).run' s).2.validate false root ≠ .ok ()) :
    Spoiled s root := by
  have hnode : ∀ i, isTidyTable s (s.node i) = true ∧ isTidyAssignment s (s.node i) = true :=
    forall_node (P := fun n => isTidyTable s n = true ∧ isTidyAssignment s n = true) ⟨rfl, rfl⟩ hcells
  exact ⟨hvalid, fun i _ => (hnode i).1, fun i _ => (hnode i).2, hfinishes, hinvalid⟩

/-- A constructor with one list for both its array and its records, filled with items of both kinds. -/
def sharedRecords : Store := numbered [
  .identifier { kind := .named, slot := 0, name := some "t" },
  .identifier { kind := .named, slot := 1, name := some "v" },
  .list .targets [⟨1⟩],
  .list .records [],
  .table ⟨4⟩ ⟨4⟩,
  .list .expressions [⟨5⟩],
  .assignment .normal ⟨6⟩ ⟨3⟩,
  .constant .integer (.number (.int 0)),
  .element ⟨1⟩ ⟨8⟩,
  .list .targets [⟨9⟩],
  .list .expressions [⟨2⟩],
  .assignment .normal ⟨11⟩ ⟨10⟩,
  .constant .text (.text "k"),
  .element ⟨1⟩ ⟨13⟩,
  .list .targets [⟨14⟩],
  .assignment .normal ⟨11⟩ ⟨15⟩,
  .list .statements [⟨7⟩, ⟨12⟩, ⟨16⟩],
  .list .identifiers [],
  .function ⟨18⟩ ⟨17⟩ {}]

/-- A choice with a choice in its `else`, whose list of statements is the given condition or among
the given branches too. -/
def sharedElse (condition : NodeId) (branches : List NodeId) : Store := numbered [
  .identifier { kind := .named, slot := 0, name := some "a" },
  .list .statements [],
  .list .statements [],
  .ifElse ⟨1⟩ ⟨2⟩ [] ⟨3⟩,
  .list .statements [⟨4⟩],
  .ifElse condition ⟨2⟩ branches ⟨5⟩,
  .list .statements [⟨6⟩],
  .list .identifiers [],
  .function ⟨8⟩ ⟨7⟩ {}]

theorem tidy_invalid_of_shared :
    Spoiled sharedRecords ⟨19⟩ ∧ Spoiled (sharedElse ⟨1⟩ [⟨5⟩]) ⟨9⟩ ∧ Spoiled (sharedElse ⟨5⟩ []) ⟨9⟩ := by
  refine ⟨?_, ?_, ?_⟩
  all_goals
    exact spoiled_of_cells (by decide +kernel) (by decide +kernel) (by decide +kernel) (by decide +kernel)

end LuaLift.Proofs
