import LuaLift.Proofs.Filling

/-! # Which assignments move into a constructor

After `T = {...}`, the assignments to elements of `T` that follow become entries of the constructor,
as long as their values do not read `T`. This is looked for among the elements of the value only: an
element `T` is found, also inside functions, while a `T` that is an identifier is never found, and
keys are not looked at. `enter_folds` says exactly which statements move; the others stay. -/
namespace LuaLift.Proofs
open Tree Pass Tidy

variable {s t : Store} {a b i j table : NodeId}

/-! ## The same variable -/

/-- Two nodes stand for the same variable or constant by their form. -/
inductive SameVariable (s : Store) : NodeId → NodeId → Prop
  | identifier {a b x y} : s.node a = .identifier x → s.node b = .identifier y → x.kind = y.kind →
      x.slot = y.slot → SameVariable s a b
  | element {a b t k t' k'} : s.node a = .element t k → s.node b = .element t' k' →
      SameVariable s t t' → SameVariable s k k' → SameVariable s a b
  | constant {a b k v v'} : s.node a = .constant k v → s.node b = .constant k v' →
      v.same v' = true → SameVariable s a b

theorem equalTo_iff {d : Nat} {r : Bool} (h : equalTo s d a b = .ok r) :
    r = true ↔ SameVariable s a b := by
  induction d generalizing a b r with
  | zero => cases h
  | succ d ih =>
    rw [equalTo] at h
    split at h
    · rename_i x y ha hb
      cases h
      rw [Bool.and_eq_true, beq_iff_eq, beq_iff_eq]
      constructor
      · exact fun ⟨hk, hs⟩ => .identifier ha hb hk hs
      · rintro (⟨ha', hb', hk, hs⟩ | ⟨ha', -⟩ | ⟨ha', -⟩)
        · rw [ha] at ha'; rw [hb] at hb'
          cases ha'; cases hb'
          exact ⟨hk, hs⟩
        all_goals rw [ha] at ha'; cases ha'
    · rename_i u k u' k' ha hb
      obtain ⟨same, htable, h⟩ := bind_eq_ok h
      have hu := ih htable
      cases same with
      | false =>
        cases h
        refine iff_of_false nofun fun hab => ?_
        cases hab with
        | element ha' hb' hu' _ =>
          rw [ha] at ha'; rw [hb] at hb'
          cases ha'; cases hb'
          exact absurd (hu.mpr hu') nofun
        | identifier ha' | constant ha' => rw [ha] at ha'; cases ha'
      | true =>
        rw [ih h]
        constructor
        · exact fun hk => .element ha hb (hu.mp rfl) hk
        · rintro (⟨ha', -⟩ | ⟨ha', hb', -, hk⟩ | ⟨ha', -⟩)
          · rw [ha] at ha'; cases ha'
          · rw [ha] at ha'; rw [hb] at hb'
            cases ha'; cases hb'
            exact hk
          · rw [ha] at ha'; cases ha'
    · rename_i k v k' v' ha hb
      cases h
      rw [Bool.and_eq_true, beq_iff_eq]
      constructor
      · rintro ⟨rfl, hv⟩
        exact .constant ha hb hv
      · rintro (⟨ha', -⟩ | ⟨ha', -⟩ | ⟨ha', hb', hv⟩)
        · rw [ha] at ha'; cases ha'
        · rw [ha] at ha'; cases ha'
        · rw [ha] at ha'; rw [hb] at hb'
          cases ha'; cases hb'
          exact ⟨rfl, hv⟩
    · rename_i hid hel hcon
      split at h
      · cases h
      · cases h
        refine iff_of_false nofun fun hab => ?_
        cases hab with
        | identifier ha hb => exact hid _ _ ha hb
        | element ha hb => exact hel _ _ _ _ ha hb
        | constant ha hb => exact hcon _ _ _ _ ha hb

theorem equal_iff {σ : Type} {w w' : Work σ} {r : Bool} (h : Returns (equal a b) w r w') :
    w' = w ∧ (r = true ↔ SameVariable w.store a b) := by
  refine ⟨equal_inv h, ?_⟩
  obtain ⟨_, w1, h1, h⟩ := h.bind
  obtain ⟨rfl, rfl⟩ := returns_get h1
  split at h
  · rename_i heq
    obtain ⟨rfl, -⟩ := h.pure
    exact equalTo_iff heq
  · exact h.throw.elim

/-- An expression reads a variable: the variable stands in it, as it is, as the base of an element
or inside a function. -/
def ReadsElement (s : Store) (table i : NodeId) : Prop := ∃ j, InTree s i j ∧ SameVariable s table j

def IsElement (n : Node) : Prop := ∃ base key, n = .element base key

theorem SameVariable.isElement_iff (h : SameVariable s a b) :
    IsElement (s.node a) ↔ IsElement (s.node b) := by
  cases h with
  | identifier ha hb | constant ha hb => simp [IsElement, ha, hb]
  | element ha hb => exact iff_of_true ⟨_, _, ha⟩ ⟨_, _, hb⟩

/-! ## Looking for a variable -/

/-- An element below a node is the variable. -/
def Mentions (s : Store) (table i : NodeId) : Prop :=
  ∃ j, InTree s i j ∧ IsElement (s.node j) ∧ SameVariable s table j

theorem mentions_iff_reads : Mentions s table i ↔ IsElement (s.node table) ∧ ReadsElement s table i := by
  constructor
  · rintro ⟨j, hj, helement, hsame⟩
    exact ⟨hsame.isElement_iff.mpr helement, j, hj, hsame⟩
  · rintro ⟨helement, j, hj, hsame⟩
    exact ⟨j, hj, hsame.isElement_iff.mp helement, hsame⟩

theorem mentions_iff_top : Mentions s table i ↔
    (IsElement (s.node i) ∧ SameVariable s table i) ∨ ∃ c ∈ (s.node i).children, Mentions s table c := by
  constructor
  · rintro ⟨j, hj, hfound⟩
    rcases hj.top with rfl | ⟨c, hc, hj⟩
    · exact .inl hfound
    · exact .inr ⟨c, hc, j, hj, hfound⟩
  · rintro (hfound | ⟨c, hc, j, hj, hfound⟩)
    · exact ⟨i, .root, hfound⟩
    · exact ⟨j, (InTree.root.child hc).trans hj, hfound⟩

/-- A step of a search leaves the store alone, and has found something if it had before or if `Q`. -/
def Finds (s : Store) (found : Bool) (Q : Prop) (w : Work Bool) : Prop :=
  w.store = s ∧ (w.own = true ↔ found = true ∨ Q)

variable {found : Bool} {fuel : Nat} {m key value : NodeId} {u : Unit} {w : Work Bool}

theorem enter_finds (h : Returns ((mentionVisitor table).enter i) ⟨s, found⟩ u w) :
    Finds s found (IsElement (s.node i) ∧ SameVariable s table i) w := by
  have h := h.atNode
  split at h
  · rename_i base key hi
    have helement : IsElement (s.node i) := ⟨base, key, hi⟩
    obtain ⟨same, w1, h1, h⟩ := h.bind
    obtain ⟨rfl, hsame⟩ := equal_iff h1
    have hsame : same = true ↔ SameVariable s table i := hsame
    split at h
    · rename_i hfound
      cases h
      exact ⟨rfl, iff_of_true rfl (.inr ⟨helement, hsame.mp hfound⟩)⟩
    · rename_i hfound
      obtain ⟨-, rfl⟩ := h.pure
      exact ⟨rfl, by simp [helement, ← hsame, hfound]⟩
  · rename_i hi
    obtain ⟨-, rfl⟩ := h.pure
    have hnone : ¬ IsElement (s.node i) := fun ⟨base, key, h⟩ => hi base key h
    exact ⟨rfl, by simp [hnone]⟩

theorem forM_finds {f : NodeId → Pass Bool Unit} {Q : NodeId → Prop} {xs : List NodeId}
    (hf : ∀ x found u w, Returns (f x) ⟨s, found⟩ u w → Finds s found (Q x) w)
    (h : Returns (xs.forM f) ⟨s, found⟩ u w) : Finds s found (∃ x ∈ xs, Q x) w := by
  induction xs generalizing found with
  | nil =>
    obtain ⟨-, rfl⟩ := h.pure
    exact ⟨rfl, by simp⟩
  | cons x xs ih =>
    obtain ⟨_, ⟨s1, found1⟩, h1, hrest⟩ := h.bind
    obtain ⟨hstore, hfound1⟩ := hf x found _ _ h1
    cases hstore
    obtain ⟨hstore, hfound⟩ := ih hrest
    refine ⟨hstore, ?_⟩
    rw [hfound, show found1 = true ↔ _ from hfound1]
    simp [or_assoc]

theorem walk_finds {d : Nat} (h : Returns (walk (mentionVisitor table) d i) ⟨s, found⟩ u w) :
    Finds s found (Mentions s table i) w := by
  induction d generalizing i found u w with
  | zero => exact h.throw.elim
  | succ d ih =>
    obtain ⟨admitted, w1, h1, h⟩ := walk_inv h
    obtain ⟨own, w2, h2, hadmits⟩ := h1.bind
    obtain ⟨hown, rfl⟩ := own_inv h2
    obtain ⟨hadmitted, rfl⟩ := hadmits.pure
    have hown : own = found := hown
    rcases h with ⟨hleft, rfl⟩ | ⟨⟨s2, found2⟩, w3, -, henter, hparts, hleave⟩
    · have hfound : found = true := by simpa [← hown, hleft] using hadmitted
      exact ⟨rfl, iff_of_true hfound (.inl hfound)⟩
    · obtain ⟨hstore, hfound2⟩ := enter_finds henter
      cases hstore
      have hfound2 : found2 = true ↔ _ := hfound2
      obtain ⟨hstore, hfound3⟩ := forM_finds (fun _ _ _ _ => ih) hparts
      obtain ⟨-, rfl⟩ := hleave.pure
      refine ⟨hstore, ?_⟩
      rw [hfound3, hfound2, mentions_iff_top, or_assoc]

theorem mentions_returns {w w' : Work Unit} (h : Returns (mentions [value] table) w found w') :
    w' = w ∧ (found = true ↔ IsElement (w.store.node table) ∧ ReadsElement w.store table value) := by
  refine ⟨mentions_inv h, ?_⟩
  obtain ⟨⟨_, found'⟩, v1, h1, h⟩ := h.bind
  obtain ⟨rfl, rfl⟩ := h.pure
  obtain ⟨v2, h2, hfound, -⟩ := within_inv h1
  obtain ⟨_, v3, h3, h2⟩ := h2.bind
  obtain ⟨rfl, rfl⟩ := returns_get h3
  obtain ⟨-, hown⟩ := forM_finds (fun _ _ _ _ => walk_finds) h2
  rw [show found' = v2.own from hfound, hown, ← mentions_iff_reads]
  simp

/-! ## Stores that agree on a tree -/

/-- The tree below a node is the same in two stores. -/
def Agrees (s t : Store) (i : NodeId) : Prop := ∀ j, InTree s i j → t.node j = s.node j

theorem Agrees.refl (s : Store) (i : NodeId) : Agrees s s i := fun _ _ => rfl

theorem Agrees.below (h : Agrees s t i) (hj : InTree s i j) : Agrees s t j :=
  fun k hk => h k (hj.trans hk)

theorem Agrees.inTree (h : Agrees s t i) (hj : InTree s i j) : InTree t i j := by
  induction hj with
  | root => exact .root
  | child hi hc ih => exact ih.child (by rw [h _ hi]; exact hc)

theorem Agrees.symm (h : Agrees s t i) : Agrees t s i := by
  have hback : ∀ j, InTree t i j → InTree s i j := by
    intro j hj
    induction hj with
    | root => exact .root
    | child _ hc ih => exact ih.child (by rw [← h _ ih]; exact hc)
  exact fun j hj => (h j (hback j hj)).symm

theorem Agrees.alters {u : Store} {P : NodeId → Prop} (h : Agrees s t i) (ha : Alters P t u)
    (hfar : ∀ j, InTree s i j → s.node j ≠ .absent ∧ ¬ P j) : Agrees s u i := by
  intro j hj
  obtain ⟨hpresent, hP⟩ := hfar j hj
  rw [ha.node (by rw [h j hj]; exact hpresent) hP, h j hj]

theorem SameVariable.agrees (h : SameVariable s a b) (ha : Agrees s t a) (hb : Agrees s t b) :
    SameVariable t a b := by
  induction h with
  | identifier hna hnb hk hs =>
    exact .identifier ((ha _ .root).trans hna) ((hb _ .root).trans hnb) hk hs
  | constant hna hnb hv => exact .constant ((ha _ .root).trans hna) ((hb _ .root).trans hnb) hv
  | element hna hnb _ _ iht ihk =>
    have hparts : ∀ {i u k}, s.node i = .element u k → InTree s i u ∧ InTree s i k := by
      intro i u k hi
      exact ⟨InTree.root.child (by simp [hi, Node.children]),
        InTree.root.child (by simp [hi, Node.children])⟩
    refine .element ((ha _ .root).trans hna) ((hb _ .root).trans hnb) ?_ ?_
    · exact iht (ha.below (hparts hna).1) (hb.below (hparts hnb).1)
    · exact ihk (ha.below (hparts hna).2) (hb.below (hparts hnb).2)

theorem ReadsElement.agrees (h : ReadsElement s table i) (htable : Agrees s t table) (hi : Agrees s t i) :
    ReadsElement t table i := by
  obtain ⟨j, hj, hsame⟩ := h
  exact ⟨j, hi.inTree hj, hsame.agrees htable (hi.below hj)⟩

/-! ## Which statements move -/

/-- A statement assigns a value to the element of `table` with a key, and does nothing else. -/
inductive AssignsElement (s : Store) (m table key value : NodeId) : Prop
  | intro {kind es ds d base} : s.node m = .assignment kind es ds → (s.node ds).items = [d] →
      (s.node es).items = [value] → s.node d = .element base key → SameVariable s base table →
      AssignsElement s m table key value

/-- A statement that may become an entry of the constructor of `table`. The value does not read
`table` if that is an element. -/
def Movable (s : Store) (table m : NodeId) : Prop :=
  ∃ key value, AssignsElement s m table key value ∧
    (IsElement (s.node table) → ¬ ReadsElement s table value)

/-- A statement assigns a constructor with two lists to `table`. -/
inductive AssignsConstructor (s : Store) (x table c a r : NodeId) : Prop
  | intro {kind es ds} : s.node x = .assignment kind es ds → (s.node es).items.head? = some c →
      s.node c = .table a r → (s.node ds).items = [table] → AssignsConstructor s x table c a r

/-- Statements and what is left of them: those that follow a constructor move into it as long as
they may, and all others stay. -/
inductive Folded (s : Store) : List NodeId → List NodeId → Prop
  | nil : Folded s [] []
  | plain {x xs ys} : (∀ table c a r, ¬ AssignsConstructor s x table c a r) → Folded s xs ys →
      Folded s (x :: xs) (x :: ys)
  | fill {x table c a r ms xs ys} : AssignsConstructor s x table c a r →
      (∀ m ∈ ms, Movable s table m) → (∀ m ∈ xs.head?, ¬ Movable s table m) → Folded s xs ys →
      Folded s (x :: (ms ++ xs)) (x :: ys)

theorem item_inTree {x : NodeId} (h : x ∈ (s.node i).items) : InTree s i x :=
  InTree.root.child ((items_sublist_children _).subset h)

theorem assignment_inTree {kind : AssignmentKind} {es ds : NodeId} (h : s.node m = .assignment kind es ds) :
    InTree s m es ∧ InTree s m ds :=
  ⟨InTree.root.child (by simp [h, Node.children]), InTree.root.child (by simp [h, Node.children])⟩

theorem AssignsElement.value_inTree (h : AssignsElement s m table key value) : InTree s m value := by
  obtain ⟨hm, -, hes, -⟩ := h
  exact (assignment_inTree hm).1.trans (item_inTree (by rw [hes]; exact List.mem_singleton_self _))

theorem AssignsElement.agrees (h : AssignsElement s m table key value) (htable : Agrees s t table)
    (hm : Agrees s t m) : AssignsElement t m table key value := by
  obtain ⟨hn, hds, hes, hd, hbase⟩ := h
  obtain ⟨hes', hds'⟩ := assignment_inTree hn
  have hd' := hds'.trans (item_inTree (by rw [hds]; exact List.mem_singleton_self _))
  refine .intro ((hm _ .root).trans hn) (by rw [hm _ hds', hds]) (by rw [hm _ hes', hes])
    ((hm _ hd').trans hd) (hbase.agrees (hm.below ?_) htable)
  exact hd'.child (by simp [hd, Node.children])

theorem Movable.agrees (h : Movable s table m) (htable : Agrees s t table) (hm : Agrees s t m) :
    Movable t table m := by
  obtain ⟨key, value, hassigns, hunread⟩ := h
  refine ⟨key, value, hassigns.agrees htable hm, fun helement hreads => ?_⟩
  rw [htable _ .root] at helement
  refine hunread helement (hreads.agrees htable.symm (hm.below ?_).symm)
  exact hassigns.value_inTree

theorem AssignsConstructor.agrees {x c : NodeId} (h : AssignsConstructor s x table c a b)
    (hx : Agrees s t x) : AssignsConstructor t x table c a b := by
  obtain ⟨hn, hes, hc, hds⟩ := h
  obtain ⟨hes', hds'⟩ := assignment_inTree hn
  have hc' := hes'.trans (item_inTree (List.mem_of_head? hes))
  exact .intro ((hx _ .root).trans hn) (by rw [hx _ hes', hes]) ((hx _ hc').trans hc)
    (by rw [hx _ hds', hds])

/-! ## What an entry touches -/

section
variable {w w' : Work Unit} {P : NodeId → Prop} {c r x : NodeId}

theorem setItems_alters {xs : List NodeId} (h : Returns (setItems x xs) w u w') (hx : P x) :
    Alters P w.store w'.store := by
  have h := h.atNode
  split at h
  · rw [returns_setNode h]
    exact alters_setNode hx
  · rw [returns_setNode h]
    exact alters_setNode hx
  · exact h.throw.elim

theorem add_alters {n : Node} (h : Returns (add n) w x w') : Alters P w.store w'.store :=
  (returns_add_grows h).1.alters

theorem insertArrayItem_alters {index : Nat} {done : Bool}
    (h : Returns (insertArrayItem a index value) ⟨t, ()⟩ done w') (ha : P a) : Alters P t w'.store := by
  have hplace : ∀ {t : Store}, Returns (do
      let xs ← items a
      if xs.length < index then return false
      let record ← add (.arrayRecord value)
      if xs.isEmpty ∨ index = xs.length then setItems a (xs ++ [record])
      else setItems a (xs.set index record)
      return true) ⟨t, ()⟩ done w' → Alters P t w'.store := by
    intro t h
    obtain ⟨xs, w1, h1, h⟩ := h.bind
    obtain ⟨-, rfl, -⟩ := items_inv h1
    split at h
    · rw [← h.pure.2]
      exact .refl P _
    · obtain ⟨record, w2, h2, h⟩ := h.bind
      split at h
      all_goals
        obtain ⟨_, w3, h3, h⟩ := h.bind
        rw [← h.pure.2]
        exact (add_alters h2).trans (setItems_alters h3 ha)
  obtain ⟨xs, w1, h1, h⟩ := h.bind
  obtain ⟨-, rfl, -⟩ := items_inv h1
  dsimp only at h
  split at h
  · obtain ⟨nil, w2, h2, h⟩ := h.bind
    obtain ⟨record, ⟨t3, _⟩, h3, h⟩ := h.bind
    obtain ⟨_, w4, h4, h⟩ := h.bind
    obtain ⟨ys, w5, h5, h4⟩ := h4.bind
    obtain ⟨-, rfl, -⟩ := items_inv h5
    exact (((add_alters h2).trans (add_alters h3)).trans (setItems_alters h4 ha)).trans (hplace h)
  · exact hplace h

theorem insertRecord_alters (h : Returns (insertRecord r key value) w u w') (hr : P r) :
    Alters P w.store w'.store := by
  obtain ⟨record, ⟨t1, _⟩, h1, h⟩ := h.bind
  obtain ⟨xs, w2, h2, h⟩ := h.bind
  obtain ⟨-, rfl, -⟩ := items_inv h2
  refine (add_alters h1).trans ?_
  dsimp only at h
  split at h
  · have h := h.atNode
    split at h
    all_goals exact setItems_alters h hr
  · exact setItems_alters h hr

theorem insertEntry_alters (h : Returns (insertEntry c key value) ⟨t, ()⟩ u w') (hc : t.node c = .table a r) :
    Alters (fun i => i = a ∨ i = r) t w'.store ∧ w'.store.node c = .table a r := by
  obtain ⟨⟨array, records⟩, w1, h1, h⟩ := h.bind
  have h1 := h1.atNode
  rw [show (Work.mk t ()).store.node c = _ from hc] at h1
  obtain ⟨hparts, rfl⟩ := h1.pure
  cases hparts
  obtain ⟨xs, w2, h2, h⟩ := h.bind
  obtain ⟨-, rfl, ha⟩ := items_inv h2
  obtain ⟨ys, w3, h3, h⟩ := h.bind
  obtain ⟨-, rfl, hr⟩ := items_inv h3
  have hlist : ∀ {i : NodeId} {zs : List NodeId}, ((∃ kind, t.node i = .list kind zs) ∨
      ∃ b, t.node i = .block b ∧ b.contents = zs) → c ≠ i := by
    rintro i zs hi rfl
    rcases hi with ⟨_, hi⟩ | ⟨_, hi, -⟩ <;> rw [hc] at hi <;> cases hi
  suffices hall : Alters (fun i => i = a ∨ i = r) t w'.store by
    refine ⟨hall, (hall.node (by rw [hc]; nofun) ?_).trans hc⟩
    rintro (hca | hcr)
    · exact hlist ha hca
    · exact hlist hr hcr
  have h := h.atNode
  split at h
  · have hset : ∀ {closed : Bool}, Returns (do
        let closed ← pure closed
        require closed "results of unknown number come last in a constructor"
        setItems r (ys ++ [value])) ⟨t, ()⟩ u w' → Alters (fun i => i = a ∨ i = r) t w'.store := by
      intro closed h
      obtain ⟨_, w4, h4, h⟩ := h.bind
      obtain ⟨rfl, rfl⟩ := h4.pure
      obtain ⟨_, w5, h5, h⟩ := h.bind
      obtain ⟨-, rfl⟩ := returns_require h5
      exact setItems_alters h (.inr rfl)
    dsimp only at h
    split at h
    · have h := h.atNode
      split at h
      all_goals exact hset h
    · exact hset h
  · obtain ⟨index, w4, h4, h⟩ := h.bind
    cases arrayIndex_inv h4
    split at h
    · obtain ⟨done, w5, h5, h⟩ := h.bind
      refine (insertArrayItem_alters h5 (.inl rfl)).trans ?_
      split at h
      · rw [← h.pure.2]
        exact .refl _ _
      · exact insertRecord_alters h (.inr rfl)
    · exact insertRecord_alters h (.inr rfl)

end

/-! ## Filling and folding -/

section
variable {w w' : Work Unit} {c r x : NodeId} {rest xs ys : List NodeId}

theorem firstItem_head (h : Returns (firstItem i) w x w') :
    w' = w ∧ (w.store.node i).items.head? = some x := by
  obtain ⟨xs, w1, h1, hfirst⟩ := h.bind
  obtain ⟨hxs, rfl, -⟩ := items_inv h1
  split at hfirst
  · obtain ⟨rfl, rfl⟩ := hfirst.pure
    exact ⟨rfl, by rw [hxs]; rfl⟩
  · exact hfirst.throw.elim

theorem Movable.of_assignment {kind : AssignmentKind} {es ds d : NodeId} (h : Movable t table x)
    (hx : t.node x = .assignment kind es ds) (hds : (t.node ds).items = [d]) :
    ∃ base key value, t.node d = .element base key ∧ (t.node es).items = [value] ∧
      SameVariable t base table ∧ (IsElement (t.node table) → ¬ ReadsElement t table value) := by
  obtain ⟨key, value, ⟨hx', hds', hes, hd, hbase⟩, hunread⟩ := h
  rw [hx] at hx'; cases hx'
  rw [hds] at hds'; cases hds'
  exact ⟨_, key, value, hd, hes, hbase, hunread⟩

/-- The next statement moves, or it and all that follow stay. -/
theorem fillConstructor_step (h : Returns (fillConstructor table c (x :: rest)) ⟨t, ()⟩ ys w) :
    (¬ Movable t table x ∧ ys = x :: rest ∧ w = ⟨t, ()⟩) ∨
      Movable t table x ∧ ∃ key value t1, Returns (insertEntry c key value) ⟨t, ()⟩ () ⟨t1, ()⟩ ∧
        Returns (fillConstructor table c rest) ⟨t1, ()⟩ ys w := by
  have hstay : ¬ Movable t table x → Returns (pure (x :: rest) : Edit (List NodeId)) ⟨t, ()⟩ ys w →
      ¬ Movable t table x ∧ ys = x :: rest ∧ w = ⟨t, ()⟩ :=
    fun hm h => ⟨hm, h.pure.1.symm, h.pure.2.symm⟩
  have h := h.atNode
  split at h
  · rename_i kind es ds hx
    have hx : t.node x = .assignment kind es ds := hx
    obtain ⟨targets, w1, h1, h⟩ := h.bind
    obtain ⟨htargets, rfl, -⟩ := items_inv h1
    have htargets : (t.node ds).items = targets := htargets
    split at h
    · rename_i hmany
      refine .inl (hstay ?_ h)
      rintro ⟨_, _, ⟨hx', hds, -⟩, -⟩
      rw [hx] at hx'; cases hx'
      rw [← htargets, hds] at hmany
      simp at hmany
    · rename_i hone
      obtain ⟨d, w2, h2, h⟩ := h.bind
      obtain ⟨rfl, hd⟩ := firstItem_head h2
      have hds : (t.node ds).items = [d] := by
        have hd : (t.node ds).items.head? = some d := hd
        rw [htargets] at hd ⊢
        exact eq_singleton_of_mem (List.mem_of_head? hd) (by omega)
      have h := h.atNode
      split at h
      · rename_i base key helement
        have helement : t.node d = .element base key := helement
        obtain ⟨same, w3, h3, h⟩ := h.bind
        obtain ⟨rfl, hsame⟩ := equal_iff h3
        have hsame : same = true ↔ SameVariable t base table := hsame
        split at h
        · rename_i htrue
          obtain ⟨values, w4, h4, h⟩ := h.bind
          obtain ⟨hvalues, rfl, -⟩ := items_inv h4
          split at h
          · rename_i value
            have hassigns : AssignsElement t x table key value :=
              .intro hx hds hvalues helement (hsame.mp htrue)
            obtain ⟨found, w5, h5, h⟩ := h.bind
            obtain ⟨rfl, hfound⟩ := mentions_returns h5
            split at h
            · rename_i hread
              refine .inl (hstay (fun hm => ?_) h)
              obtain ⟨_, _, _, -, hes, -, hunread⟩ := hm.of_assignment hx hds
              cases (show (t.node es).items = _ from hvalues).symm.trans hes
              obtain ⟨helement, hreads⟩ := hfound.mp hread
              exact hunread helement hreads
            · rename_i hunread
              obtain ⟨_, ⟨t6, _⟩, h6, h⟩ := h.bind
              refine .inr ⟨⟨key, value, hassigns, fun he hr => hunread (hfound.mpr ⟨he, hr⟩)⟩, ?_⟩
              exact ⟨key, value, t6, h6, h⟩
          · exact h.throw.elim
        · rename_i hfalse
          refine .inl (hstay (fun hm => ?_) h)
          obtain ⟨_, _, _, hd, -, hbase, -⟩ := hm.of_assignment hx hds
          cases helement.symm.trans hd
          exact hfalse (hsame.mpr hbase)
      · rename_i hother
        refine .inl (hstay (fun hm => ?_) h)
        obtain ⟨_, _, _, hd, -⟩ := hm.of_assignment hx hds
        exact hother _ _ hd
  · rename_i hother
    refine .inl (hstay ?_ h)
    rintro ⟨_, _, ⟨hx', -⟩, -⟩
    exact hother _ _ _ hx'

/-- All statements that are looked at agree with the start, and the lists of the constructor stand in
none of them. -/
theorem fillConstructor_moves (h : Returns (fillConstructor table c rest) ⟨t, ()⟩ ys w)
    (hc : t.node c = .table a r) (hagree : ∀ m, m = table ∨ m ∈ rest → Agrees s t m)
    (hfar : ∀ m, m = table ∨ m ∈ rest → ∀ j, InTree s m j → s.node j ≠ .absent ∧ ¬ (j = a ∨ j = r)) :
    ∃ ms, rest = ms ++ ys ∧ (∀ m ∈ ms, Movable s table m) ∧ (∀ m ∈ ys.head?, ¬ Movable s table m) ∧
      Alters (fun i => i = a ∨ i = r) t w.store := by
  induction rest generalizing t with
  | nil =>
    obtain ⟨rfl, rfl⟩ := h.pure
    exact ⟨[], rfl, nofun, nofun, .refl _ _⟩
  | cons x rest ih =>
    have htable := hagree table (.inl rfl)
    have hx := hagree x (.inr List.mem_cons_self)
    rcases fillConstructor_step h with ⟨hstays, rfl, rfl⟩ | ⟨hmoves, key, value, t1, h1, h⟩
    · refine ⟨[], rfl, nofun, ?_, .refl _ _⟩
      rintro m ⟨⟩ hm
      exact hstays (hm.agrees htable hx)
    · obtain ⟨halters, hc1⟩ := insertEntry_alters h1 hc
      have hrest : ∀ m, m = table ∨ m ∈ rest → m = table ∨ m ∈ x :: rest :=
        fun m hm => hm.imp_right (List.mem_cons_of_mem _)
      obtain ⟨ms, rfl, hms, hys, halters'⟩ := ih h hc1
        (fun m hm => (hagree m (hrest m hm)).alters halters (hfar m (hrest m hm)))
        (fun m hm => hfar m (hrest m hm))
      refine ⟨x :: ms, rfl, ?_, hys, halters.trans halters'⟩
      intro m hm
      cases hm with
      | head => exact hmoves.agrees htable.symm hx.symm
      | tail _ hm => exact hms m hm

/-- What is left of the statements after `x` before they are folded themselves: if `x` assigns a
constructor, it is filled first. -/
inductive Prepares (t : Store) (x : NodeId) (rest : List NodeId) : List NodeId → Store → Prop
  | plain : (∀ table c a r, ¬ AssignsConstructor t x table c a r) → Prepares t x rest rest t
  | fill {table c a r kept t1} : AssignsConstructor t x table c a r →
      Returns (fillConstructor table c rest) ⟨t, ()⟩ kept ⟨t1, ()⟩ → Prepares t x rest kept t1

theorem foldAssignments_step (h : Returns (foldAssignments (fuel + 1) (x :: rest)) ⟨t, ()⟩ ys w) :
    ∃ kept zs t1, Prepares t x rest kept t1 ∧ ys = x :: zs ∧
      Returns (foldAssignments fuel kept) ⟨t1, ()⟩ zs w := by
  have hdone : ∀ {kept : List NodeId} {t1 : Store}, Prepares t x rest kept t1 → Returns (do
      let rest ← pure kept
      return x :: (← foldAssignments fuel rest)) ⟨t1, ()⟩ ys w →
      ∃ kept zs t1, Prepares t x rest kept t1 ∧ ys = x :: zs ∧
        Returns (foldAssignments fuel kept) ⟨t1, ()⟩ zs w := by
    intro kept t1 hkept h
    obtain ⟨_, w1, h1, h⟩ := h.bind
    obtain ⟨rfl, rfl⟩ := h1.pure
    obtain ⟨zs, w2, h2, h⟩ := h.bind
    obtain ⟨rfl, rfl⟩ := h.pure
    exact ⟨kept, zs, t1, hkept, rfl, h2⟩
  have h := h.atNode
  split at h
  · rename_i kind es ds hx
    have hx : t.node x = .assignment kind es ds := hx
    obtain ⟨value, w1, h1, h⟩ := h.bind
    obtain ⟨rfl, hvalue⟩ := firstItem_head h1
    have h := h.atNode
    split at h
    · rename_i a r hn
      obtain ⟨targets, w2, h2, h⟩ := h.bind
      obtain ⟨htargets, rfl, -⟩ := items_inv h2
      split at h
      · obtain ⟨kept, ⟨t1, _⟩, h3, h⟩ := h.bind
        exact hdone (.fill (.intro hx hvalue hn htargets) h3) h
      · exact h.throw.elim
    · rename_i hother
      refine hdone (.plain ?_) h
      rintro _ c a r ⟨hx', hes, hc, -⟩
      rw [hx] at hx'; cases hx'
      cases (show (t.node es).items.head? = _ from hvalue).symm.trans hes
      exact hother _ _ hc
  · rename_i hother
    refine hdone (.plain ?_) h
    rintro _ _ _ _ ⟨hx', -⟩
    exact hother _ _ _ hx'

/-- The lists of the constructors that statements of `xs` assign stand nowhere else in these
statements, and no part of a statement is missing. -/
structure FoldsApart (s : Store) (list : NodeId) (xs : List NodeId) : Prop where
  nodup : xs.Nodup
  present : ∀ m ∈ xs, ∀ j, InTree s m j → s.node j ≠ .absent
  lists : ∀ {x table c a r}, x ∈ xs → AssignsConstructor s x table c a r → ∀ i, (i = a ∨ i = r) →
    i ≠ list ∧ ¬ InTree s table i ∧ ∀ m ∈ xs, m ≠ x → ¬ InTree s m i

theorem AssignsConstructor.inTree (h : AssignsConstructor s x table c a r) : InTree s x table := by
  obtain ⟨hx, -, -, hds⟩ := h
  exact (assignment_inTree hx).2.trans (item_inTree (by rw [hds]; exact List.mem_singleton_self _))

/-- Folding, from a store that agrees with the start on all statements that are left. -/
theorem foldAssignments_folded {list : NodeId} {all xs : List NodeId} (hapart : FoldsApart s list all)
    (hfuel : xs.length ≤ fuel) (hsub : xs.Sublist all) (hagree : ∀ m ∈ xs, Agrees s t m)
    (h : Returns (foldAssignments fuel xs) ⟨t, ()⟩ ys w) :
    Folded s xs ys ∧ Alters (fun i => i ≠ list) t w.store := by
  induction fuel generalizing t xs ys with
  | zero =>
    obtain rfl : xs = [] := List.length_eq_zero_iff.mp (by omega)
    obtain ⟨rfl, rfl⟩ := h.pure
    exact ⟨.nil, .refl _ _⟩
  | succ fuel ih =>
    cases xs with
    | nil =>
      obtain ⟨rfl, rfl⟩ := h.pure
      exact ⟨.nil, .refl _ _⟩
    | cons x rest =>
      have hx := hagree x List.mem_cons_self
      have hrest : ∀ m ∈ rest, Agrees s t m := fun m hm => hagree m (List.mem_cons_of_mem _ hm)
      obtain ⟨kept, zs, t1, hkept, rfl, hnext⟩ := foldAssignments_step h
      cases hkept with
      | plain hplain =>
        obtain ⟨hfolded, halters⟩ := ih (by simpa using hfuel) ((List.sublist_cons_self ..).trans hsub)
          hrest hnext
        exact ⟨.plain (fun table c a r hc => hplain table c a r (hc.agrees hx)) hfolded, halters⟩
      | @fill table c a r _ _ hassigns hfill =>
        have hassigns' := hassigns.agrees hx.symm
        have htable := hassigns'.inTree
        have hxall := hsub.subset List.mem_cons_self
        have hlists := hapart.lists hxall hassigns'
        have hne : ∀ m ∈ rest, m ≠ x := by
          rintro m hm rfl
          exact (List.nodup_cons.mp (hapart.nodup.sublist hsub)).1 hm
        have hfar : ∀ m, m = table ∨ m ∈ rest → ∀ j, InTree s m j →
            s.node j ≠ .absent ∧ ¬ (j = a ∨ j = r) := by
          rintro m (rfl | hm) j hj
          · exact ⟨hapart.present x hxall j (htable.trans hj), fun hja => (hlists j hja).2.1 hj⟩
          · have hmall := hsub.subset (List.mem_cons_of_mem _ hm)
            exact ⟨hapart.present m hmall j hj, fun hja => (hlists j hja).2.2 m hmall (hne m hm) hj⟩
        have hagree' : ∀ m, m = table ∨ m ∈ rest → Agrees s t m := by
          rintro m (rfl | hm)
          · exact hx.below htable
          · exact hrest m hm
        obtain ⟨_, _, hc, _⟩ := hassigns
        obtain ⟨ms, rfl, hms, hstop, halters⟩ := fillConstructor_moves hfill hc hagree' hfar
        have hsuffix : kept.Sublist (ms ++ kept) := List.sublist_append_right ..
        obtain ⟨hfolded, halters'⟩ := ih (by simp at hfuel; omega)
          (hsuffix.trans ((List.sublist_cons_self ..).trans hsub))
          (fun m hm => (hrest m (hsuffix.subset hm)).alters halters
            (hfar m (.inr (hsuffix.subset hm)))) hnext
        refine ⟨.fill hassigns' hms hstop hfolded, (halters.mono fun i _ hi => ?_).trans halters'⟩
        exact (hlists i hi).1

theorem Folded.sublist (h : Folded s xs ys) : ys.Sublist xs := by
  induction h with
  | nil => exact .slnil
  | plain _ _ ih => exact ih.cons_cons _
  | fill _ _ _ _ ih => exact (ih.trans (List.sublist_append_right ..)).cons_cons _

theorem Folded.moved (h : Folded s xs ys) (hm : m ∈ xs) (hgone : m ∉ ys) :
    ∃ x ∈ ys, ∃ table c a r, AssignsConstructor s x table c a r ∧ Movable s table m := by
  induction h with
  | nil => cases hm
  | plain _ _ ih =>
    rw [List.mem_cons, not_or] at hgone
    obtain ⟨x, hx, hmoves⟩ := ih ((List.mem_cons.mp hm).resolve_left hgone.1) hgone.2
    exact ⟨x, List.mem_cons_of_mem _ hx, hmoves⟩
  | @fill x table c a r ms xs ys hassigns hms _ _ ih =>
    rw [List.mem_cons, not_or] at hgone
    rcases List.mem_append.mp ((List.mem_cons.mp hm).resolve_left hgone.1) with hm | hm
    · exact ⟨x, List.mem_cons_self, table, c, a, r, hassigns, hms m hm⟩
    · obtain ⟨y, hy, hmoves⟩ := ih hm hgone.2
      exact ⟨y, List.mem_cons_of_mem _ hy, hmoves⟩

/-- Statements that are not moved stay, in their order. The moved ones are those that follow a
constructor of a variable, without a gap, and assign to elements of it; if the variable is an element
itself, their values do not read it. -/
theorem enter_folds {list : NodeId} (hlist : s.node list = .list .statements xs)
    (hapart : FoldsApart s list xs) {u : Unit} (h : Returns (visitor.enter list) ⟨s, ()⟩ u w) :
    ∃ ys, w.store.node list = .list .statements ys ∧ Folded s xs ys ∧ ys.Sublist xs ∧
      ∀ m ∈ xs, m ∉ ys → ∃ x ∈ ys, ∃ table c a r key value,
        AssignsConstructor s x table c a r ∧ AssignsElement s m table key value ∧
          (IsElement (s.node table) → ¬ ReadsElement s table value) := by
  have h := h.atNode
  rw [show (Work.mk s ()).store.node list = _ from hlist] at h
  obtain ⟨ys, ⟨t, _⟩, h1, h⟩ := h.bind
  obtain ⟨hfolded, halters⟩ :=
    foldAssignments_folded hapart (Nat.le_refl _) (.refl _) (fun m _ => .refl s m) h1
  have hkept : t.node list = .list .statements xs :=
    (halters.node (by rw [hlist]; nofun) (not_not_intro rfl)).trans hlist
  have hw := setItems_inv h hkept
  refine ⟨ys, ?_, hfolded, hfolded.sublist, fun m hm hgone => ?_⟩
  · rw [hw]
    exact node_setNode_self (inside_of_node (by rw [hkept]; nofun))
  · obtain ⟨x, hx, table, c, a, r, hassigns, key, value, helement, hunread⟩ := hfolded.moved hm hgone
    exact ⟨x, hx, table, c, a, r, key, value, hassigns, helement, hunread⟩

end

/-! ## A global table and a local one -/

theorem inTree_subset {S : List NodeId} (hroot : i ∈ S)
    (hclosed : ∀ k ∈ S, ∀ c ∈ (s.node k).children, c ∈ S) (h : InTree s i j) : j ∈ S := by
  induction h with
  | root => exact hroot
  | child _ hc ih => exact hclosed _ ih _ hc

/-- `g = {}`, `g.a = 1` and `g.b = g.a`, with `g` a global variable. -/
def globalTable : Store := numbered [
  .identifier { kind := .builtin, name := some "_env" },
  .constant .text (.text "g"),
  .element ⟨1⟩ ⟨2⟩,
  .list .targets [⟨3⟩],
  .list .records [],
  .list .records [],
  .table ⟨5⟩ ⟨6⟩,
  .list .expressions [⟨7⟩],
  .assignment .normal ⟨8⟩ ⟨4⟩,
  .constant .text (.text "a"),
  .element ⟨3⟩ ⟨10⟩,
  .list .targets [⟨11⟩],
  .constant .integer (.number (.int 1)),
  .list .expressions [⟨13⟩],
  .assignment .normal ⟨14⟩ ⟨12⟩,
  .constant .text (.text "b"),
  .element ⟨3⟩ ⟨16⟩,
  .list .targets [⟨17⟩],
  .list .expressions [⟨11⟩],
  .assignment .normal ⟨19⟩ ⟨18⟩,
  .list .statements [⟨9⟩, ⟨15⟩, ⟨20⟩]]

/-- `t = {}` and `t.a = t`, with `t` a local variable. -/
def localTable : Store := numbered [
  .identifier { kind := .named, slot := 0, name := some "t" },
  .list .targets [⟨1⟩],
  .list .records [],
  .list .records [],
  .table ⟨3⟩ ⟨4⟩,
  .list .expressions [⟨5⟩],
  .assignment .normal ⟨6⟩ ⟨2⟩,
  .constant .text (.text "a"),
  .element ⟨1⟩ ⟨8⟩,
  .list .targets [⟨9⟩],
  .list .expressions [⟨1⟩],
  .assignment .normal ⟨11⟩ ⟨10⟩,
  .list .statements [⟨7⟩, ⟨12⟩]]

theorem globalTable_apart : FoldsApart globalTable ⟨21⟩ [⟨9⟩, ⟨15⟩, ⟨20⟩] := by
  let parts : List NodeId := (List.range 20).map fun k => ⟨k + 1⟩
  -- All but the first assignment, the constructor and the lists around it.
  let others : List NodeId := parts.filter fun j => j.index < 4 || 9 < j.index
  have hothers : ∀ m ∈ others, ∀ j, InTree globalTable m j → j ∈ others :=
    fun m hm j => inTree_subset hm (by decide +kernel)
  refine ⟨by decide, fun m hm j hj => ?_, ?_⟩
  · have hstart : ∀ m ∈ [⟨9⟩, ⟨15⟩, ⟨20⟩], m ∈ parts := by decide +kernel
    have hpresent : ∀ j ∈ parts, globalTable.node j ≠ .absent := by decide +kernel
    exact hpresent j (inTree_subset (hstart m hm) (by decide +kernel) hj)
  · rintro x table c a r hx ⟨hn, hes, hc, hds⟩ i hi
    have hlists : ∀ j, (j = ⟨5⟩ ∨ j = ⟨6⟩) → j ≠ ⟨21⟩ ∧ j ∉ others := by
      rintro j (rfl | rfl) <;> decide +kernel
    simp only [List.mem_cons, List.not_mem_nil, or_false] at hx
    rcases hx with rfl | rfl | rfl
    · cases hn
      cases hes
      cases hc
      cases hds
      refine ⟨(hlists i hi).1, fun h => (hlists i hi).2 (hothers ⟨3⟩ (by decide +kernel) i h), ?_⟩
      intro m hm hne h
      simp only [List.mem_cons, List.not_mem_nil, or_false] at hm
      rcases hm with rfl | rfl | rfl
      · exact hne rfl
      · exact (hlists i hi).2 (hothers ⟨15⟩ (by decide +kernel) i h)
      · exact (hlists i hi).2 (hothers ⟨20⟩ (by decide +kernel) i h)
    · cases hn
      cases hes
      cases hc
    · cases hn
      cases hes
      cases hc

theorem read_of_global_stays :
    FoldsApart globalTable ⟨21⟩ [⟨9⟩, ⟨15⟩, ⟨20⟩] ∧ ∃ w, Returns (visitor.enter ⟨21⟩) ⟨globalTable, ()⟩ () w ∧
      w.store.node ⟨21⟩ = .list .statements [⟨9⟩, ⟨20⟩] ∧
      Folded globalTable [⟨9⟩, ⟨15⟩, ⟨20⟩] [⟨9⟩, ⟨20⟩] := by
  have hrun : ∃ w, Returns (visitor.enter ⟨21⟩) ⟨globalTable, ()⟩ () w ∧
      w.store.node ⟨21⟩ = .list .statements [⟨9⟩, ⟨20⟩] := ⟨_, rfl, by decide +kernel⟩
  obtain ⟨w, hw, hstatements⟩ := hrun
  obtain ⟨ys, hys, hfolded, -⟩ := enter_folds rfl globalTable_apart hw
  cases hstatements.symm.trans hys
  exact ⟨globalTable_apart, w, hw, hstatements, hfolded⟩

/-- The local table is read by the value that moves into its own constructor. -/
theorem self_reference_moves :
    ∃ w, Returns (visitor.enter ⟨13⟩) ⟨localTable, ()⟩ () w ∧
      w.store.node ⟨13⟩ = .list .statements [⟨7⟩] ∧
      AssignsConstructor localTable ⟨7⟩ ⟨1⟩ ⟨5⟩ ⟨3⟩ ⟨4⟩ ∧
      AssignsElement localTable ⟨12⟩ ⟨1⟩ ⟨8⟩ ⟨1⟩ ∧ ReadsElement localTable ⟨1⟩ ⟨1⟩ := by
  have hsame : SameVariable localTable ⟨1⟩ ⟨1⟩ := .identifier rfl rfl rfl rfl
  exact ⟨_, rfl, by decide +kernel, .intro rfl rfl rfl rfl, .intro rfl rfl rfl rfl hsame,
    ⟨1⟩, .root, hsame⟩

end LuaLift.Proofs
