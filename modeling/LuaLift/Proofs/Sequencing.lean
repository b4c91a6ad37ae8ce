import LuaLift.Proofs.LoopTests

/-! # Functions whose loop tests have moved

`Sequenced s H f` says what the tree of a function is once the tests of its loops have moved: a list
of blocks with statements and exits, whose addresses do not decrease, and functions in some of the
statements, again sequenced. All nodes but inner ones are nodes of `H`. -/
namespace LuaLift.Proofs
open Bytecode Tree Pass Lift Flow

/-- The addresses of the statements and of the exit of a block, in their order. -/
def addressesOf (s : Store) (i : NodeId) : List Int :=
  match s.node i with
  | .block b => (b.contents ++ [b.exit]).filterMap fun x => (s.cell x).address
  | _ => []

/-- A block with its statements and its exit. -/
structure SequencedBlock (s : Store) (H : NodeId → Prop) (i : NodeId) (b : Block) : Prop where
  cell : s.cell i = ⟨.block b, none, false⟩
  exit : ∃ n a, s.cell b.exit = ⟨n, a, false⟩ ∧ n.isExit = true ∧ ExitParts s n
  content : ∀ x ∈ b.contents, Content s x ∨ ∃ g, Closure s x g
  home : H i ∧ H b.exit ∧ ∀ x ∈ b.contents, H x

/-- The tree of a function, with the functions inside. -/
inductive Sequenced (s : Store) (H : NodeId → Prop) : NodeId → Prop
  | tree {f as l bs debug count}
      (function : s.cell f = ⟨.function as l ⟨some debug, count⟩, none, false⟩)
      (arguments : Has s (Node.isList .identifiers) as)
      (list : s.cell l = ⟨.list .statements bs, none, false⟩)
      (home : H f ∧ H l)
      (blocks : ∀ i ∈ bs, ∃ b, SequencedBlock s H i b)
      (ascending : (bs.flatMap (addressesOf s)).Pairwise (· ≤ ·))
      (positive : ∀ a ∈ bs.flatMap (addressesOf s), 0 ≤ a)
      (below : ∀ i ∈ bs, ∀ b, s.node i = .block b → ∀ x ∈ b.contents, ∀ g, Closure s x g →
        g.index < f.index)
      (sub : ∀ i ∈ bs, ∀ b, s.node i = .block b → ∀ x ∈ b.contents, ∀ g, Closure s x g →
        Sequenced s H g) : Sequenced s H f

variable {s s' : Store} {H H' : NodeId → Prop} {i f x g : NodeId} {b : Block} {d e : Nat}

/-! ## Changes elsewhere -/

theorem Content.inside (h : Content s x) : x.index < s.cells.size := by
  refine inside_of_node fun hn => ?_
  cases h with
  | plain h _ =>
    have := h.inner
    rw [hn] at this
    cases this
  | ret h _ =>
    rw [hn] at h
    cases h

theorem Closure.inside (h : Closure s x g) : x.index < s.cells.size := by
  obtain ⟨⟨kind, es, ds, hx, -⟩, -⟩ := h
  exact inside_of_node (by rw [hx]; simp)

theorem SequencedBlock.inside (h : SequencedBlock s H i b) (hx : x ∈ b.contents) :
    x.index < s.cells.size := by
  rcases h.content x hx with hc | ⟨g, hc⟩
  · exact hc.inside
  · exact hc.inside

theorem SequencedBlock.exit_inside (h : SequencedBlock s H i b) : b.exit.index < s.cells.size := by
  obtain ⟨n, a, hcell, hexit, -⟩ := h.exit
  exact inside_of_node (by rw [Store.node, hcell]; rintro rfl; cases hexit)

theorem SequencedBlock.addressesOf_keep (h : SequencedBlock s H i b)
    (hH : ∀ j, H j → j.index < s.cells.size → s'.cell j = s.cell j) :
    addressesOf s' i = addressesOf s i := by
  have hi : s'.node i = .block b := by
    rw [Store.node, hH i h.home.1 (inside_of_cell h.cell (by simp)), h.cell]
  rw [addressesOf, addressesOf, hi, show s.node i = .block b from congrArg Cell.node h.cell]
  refine List.filterMap_congr fun x hx => ?_
  rcases List.mem_append.mp hx with hx | hx
  · rw [hH x (h.home.2.2 x hx) (h.inside hx)]
  · rw [List.mem_singleton.mp hx, hH _ h.home.2.1 h.exit_inside]

section
variable (h : SequencedBlock s H i b) (hk : Keeps s s') (hsize : s.cells.size ≤ s'.cells.size)
  (hH : ∀ j, H j → j.index < s.cells.size → s'.cell j = s.cell j)
  (hfun : ∀ x ∈ b.contents, ∀ g, Closure s x g →
    ∃ as ss scope, s'.cell g = ⟨.function as ss scope, none, false⟩)
include h hk hsize hH hfun

theorem SequencedBlock.keep : SequencedBlock s' H i b := by
  refine ⟨?_, ?_, fun x hx => ?_, h.home⟩
  · rw [hH i h.home.1 (inside_of_cell h.cell (by simp)), h.cell]
  · obtain ⟨n, a, hcell, hexit, hparts⟩ := h.exit
    exact ⟨n, a, by rw [hH _ h.home.2.1 h.exit_inside, hcell], hexit, hparts.keep hk hsize⟩
  · rcases h.content x hx with hc | ⟨g, hc⟩
    · refine .inl (hc.keep hk hsize fun vs hv => ?_)
      rwa [Store.node, hH x (h.home.2.2 x hx) hc.inside]
    · exact .inr ⟨g, hc.keepAs hk hsize (hfun x hx g hc)⟩

theorem SequencedBlock.closure_of_keep (hx : x ∈ b.contents) (hc : Closure s' x g) :
    Closure s x g := by
  rcases h.content x hx with hcontent | ⟨g', hc'⟩
  · refine absurd hc (Content.not_closure (hcontent.keep hk hsize fun vs hv => ?_))
    rwa [Store.node, hH x (h.home.2.2 x hx) hcontent.inside]
  · obtain rfl := hc.unique (hc'.keepAs hk hsize (hfun x hx g' hc'))
    exact hc'

end

theorem SequencedBlock.mono (h : SequencedBlock s H i b) (hH : ∀ j, H j → H' j) : SequencedBlock s H' i b :=
  { h with home := ⟨hH _ h.home.1, hH _ h.home.2.1, fun x hx => hH _ (h.home.2.2 x hx)⟩ }

theorem Sequenced.mono (h : Sequenced s H f) (hH : ∀ j, H j → H' j) : Sequenced s H' f := by
  induction h with
  | tree function arguments list home blocks ascending positive below sub ih =>
    refine .tree function arguments list ⟨hH _ home.1, hH _ home.2⟩ (fun i hi => ?_) ascending positive
      below ih
    obtain ⟨b, hb⟩ := blocks i hi
    exact ⟨b, hb.mono hH⟩

theorem Sequenced.function (h : Sequenced s H f) :
    ∃ as ss scope, s.cell f = ⟨.function as ss scope, none, false⟩ := by
  cases h with
  | tree function => exact ⟨_, _, _, function⟩

theorem Sequenced.keep (h : Sequenced s H f) (hk : Keeps s s') (hsize : s.cells.size ≤ s'.cells.size)
    (hH : ∀ j, H j → j.index < s.cells.size → s'.cell j = s.cell j) : Sequenced s' H f := by
  induction h with
  | @tree f as l bs debug count function arguments list home blocks ascending positive below sub ih =>
    have hblock : ∀ i ∈ bs, ∃ b, SequencedBlock s H i b ∧ s.node i = .block b := by
      intro i hi
      obtain ⟨b, hb⟩ := blocks i hi
      exact ⟨b, hb, congrArg Cell.node hb.cell⟩
    have haddr : bs.flatMap (addressesOf s') = bs.flatMap (addressesOf s) :=
      List.flatMap_congr fun i hi => by
        obtain ⟨b, hb, -⟩ := hblock i hi
        exact hb.addressesOf_keep hH
    -- What is a function in `s'` was one in `s`.
    have hback : ∀ i ∈ bs, ∀ b', s'.node i = .block b' → ∀ x ∈ b'.contents, ∀ g, Closure s' x g →
        s.node i = .block b' ∧ Closure s x g := by
      intro i hi b' hb' x hx g hc
      obtain ⟨b, hb, hnode⟩ := hblock i hi
      obtain rfl : b = b' := by
        rw [Store.node, hH i hb.home.1 (inside_of_cell hb.cell (by simp)), hb.cell] at hb'
        exact Node.block.inj hb'
      refine ⟨hnode, hb.closure_of_keep hk hsize hH (fun x hx g hc => ?_) hx hc⟩
      exact (ih i hi b hnode x hx g hc).function
    have hfunction := (hH f home.1 (inside_of_cell function (by simp))).trans function
    have hlist := (hH l home.2 (inside_of_cell list (by simp))).trans list
    refine .tree hfunction (arguments.keep hk hsize) hlist home (fun i hi => ?_) (haddr ▸ ascending)
      (haddr ▸ positive) (fun i hi b hb x hx g hc => ?_) (fun i hi b hb x hx g hc => ?_)
    · obtain ⟨b, hb, hnode⟩ := hblock i hi
      exact ⟨b, hb.keep hk hsize hH fun x hx g hc => (ih i hi b hnode x hx g hc).function⟩
    · obtain ⟨hnode, hc'⟩ := hback i hi b hb x hx g hc
      exact below i hi b hnode x hx g hc'
    · obtain ⟨hnode, hc'⟩ := hback i hi b hb x hx g hc
      exact ih i hi b hnode x hx g hc'

/-! ## Walking through parts without blocks -/

variable {w : Work Unit} {n : Node} {post : Unit → Work Unit → Prop}

theorem Succeeds.forM_same {σ α : Type} {f : α → Pass σ Unit} {xs : List α} {w : Work σ}
    {post : Unit → Work σ → Prop} (h : ∀ x ∈ xs, Succeeds (f x) w fun _ w' => w' = w) (hp : post () w) :
    Succeeds (xs.forM f) w post := by
  refine (Succeeds.forM (fun _ v => v = w) rfl fun k x v hx hv => ?_).mono fun _ w' hw => hw ▸ hp
  rw [hv]
  exact h x (List.mem_of_getElem? hx)

theorem Succeeds.forM_append {σ α : Type} {f : α → Pass σ Unit} {xs ys : List α} {w : Work σ}
    {post : Unit → Work σ → Prop} (h : Succeeds (xs.forM f) w fun _ w' => Succeeds (ys.forM f) w' post) :
    Succeeds ((xs ++ ys).forM f) w post := by
  rw [List.forM_eq_forM] at h ⊢
  rw [List.forM_append]
  exact h.bind

theorem succeeds_walk_node (hn : w.store.node i = n) (hne : n ≠ .absent)
    (hl : ∀ bs, n ≠ .list .statements bs)
    (h : Succeeds (n.children.forM (walk loopEntryVisitor d)) w post) :
    Succeeds (walk loopEntryVisitor (d + 1) i) w post := by
  refine Succeeds.bind (.pure ?_)
  refine (succeeds_node ?_).bind
  rw [hn]
  refine (succeeds_require (by simpa using hne) ?_).bind
  have henter : Succeeds (loopEntryVisitor.enter i) w fun _ w' => w' = w := by
    refine (succeeds_node ?_).bind
    rw [hn]
    split
    · exact absurd rfl (hl _)
    · exact .pure rfl
  refine henter.next fun _ w' hw => ?_
  subst hw
  refine (succeeds_node ?_).bind
  rw [hn]
  exact h.next fun _ w' hp => .pure hp

theorem succeeds_walk_plain (h : Plain s d i) (hk : Keeps s w.store) (hd : d ≤ e) (hp : post () w) :
    Succeeds (walk loopEntryVisitor e i) w post := by
  induction d generalizing i e post with
  | zero => exact h.elim
  | succ d ih =>
    obtain ⟨e, rfl⟩ : ∃ e', e = e' + 1 := ⟨e - 1, by omega⟩
    obtain ⟨hi, -, hc⟩ := h
    refine succeeds_walk_node (hk.node hi) ?_ ?_ (.forM_same (fun c hm => ?_) hp)
    · intro ha
      rw [ha] at hi
      cases hi
    · intro bs hbs
      rw [hbs] at hi
      cases hi
    · exact ih (hc c hm).2 (by omega) rfl

theorem succeeds_walk_content (h : Content s x) (hk : Keeps s w.store)
    (hret : ∀ vs, s.node x = .ret vs → w.store.node x = .ret vs) (hd : s.cells.size < e)
    (hp : post () w) : Succeeds (walk loopEntryVisitor e x) w post := by
  cases h with
  | plain h _ => exact succeeds_walk_plain h hk (by omega) hp
  | @ret vs h hv =>
    obtain ⟨e, rfl⟩ : ∃ e', e = e' + 1 := ⟨e - 1, by omega⟩
    refine succeeds_walk_node (hret vs h) (by simp) (by simp) (.forM_same (fun c hm => ?_) hp)
    obtain rfl := List.mem_singleton.mp hm
    exact succeeds_walk_plain hv.plain hk (by omega) rfl

theorem ExitParts.plain (h : ExitParts s n) (hn : n.isExit = true) {c : NodeId} (hc : c ∈ n.children) :
    Plain s s.cells.size c := by
  cases n with
  | test c' _ _ _ =>
    obtain rfl := List.mem_singleton.mp hc
    exact Has.plain h
  | iterate vs cs _ _ | count vs cs _ _ =>
    rcases List.mem_pair.mp hc with rfl | rfl
    · exact h.1.plain
    · exact h.2.plain
  | jump | stop => cases hc
  | _ => cases hn

theorem succeeds_walk_exit (hn : w.store.node i = n) (hexit : n.isExit = true) (h : ExitParts s n)
    (hk : Keeps s w.store) (hd : s.cells.size < e) (hp : post () w) :
    Succeeds (walk loopEntryVisitor e i) w post := by
  obtain ⟨e, rfl⟩ : ∃ e', e = e' + 1 := ⟨e - 1, by omega⟩
  refine succeeds_walk_node hn ?_ ?_ (.forM_same (fun c hm => ?_) hp)
  · rintro rfl
    cases hexit
  · rintro _ rfl
    cases hexit
  · exact succeeds_walk_plain (h.plain hexit hm) hk (by omega) rfl

theorem succeeds_walk_closure (h : Closure s x g) (hk : Keeps s w.store) (hd : s.cells.size ≤ d + 1)
    (hg : Succeeds (walk loopEntryVisitor d g) w fun u w' => post u w' ∧ Keeps w.store w'.store) :
    Succeeds (walk loopEntryVisitor (d + 2) x) w post := by
  obtain ⟨⟨kind, es, ds, hx, hes, hds, -⟩, -⟩ := h
  have hxn : w.store.node x = .assignment kind es ds := (hk.node (by rw [hx]; rfl)).trans hx
  have hesn : w.store.node es = .list .expressions [g] := by
    rw [Store.node, hk es (by rw [Store.node, hes]; rfl), hes]
  refine succeeds_walk_node hxn (by simp) (by simp) ?_
  refine (succeeds_walk_node hesn (by simp) (by simp) ?_).bind
  refine hg.next ?_
  rintro _ w' ⟨hp, hk'⟩
  exact .pure (succeeds_walk_plain hds.plain (hk.trans hk') hd (.pure hp)).bind

/-! ## The spans of the functions inside -/

variable {lo : Nat} {F : Frame} {j y : NodeId} {a : Int}

/-- The nodes that belong to the function in a statement. -/
def Frame.Region (F : Frame) (s : Store) (x j : NodeId) : Prop :=
  ∃ a g lo, F.line a = some x ∧ Closure s x g ∧ Apart F.mid F.line a x lo g ∧
    lo ≤ j.index ∧ j.index ≤ g.index

/-- The functions in different statements have different nodes. -/
theorem Frame.region_unique (hx : F.Region s x j) (hy : F.Region s y j) : x = y := by
  obtain ⟨a, g, m, ha, hg, hap, h1, h2⟩ := hx
  obtain ⟨b, g', m', hb, hg', hap', h1', h2'⟩ := hy
  rcases Int.lt_trichotomy a b with hlt | rfl | hlt
  · have := hap'.behind ha hlt
    have := hap.lt
    omega
  · exact Option.some.inj (ha.symm.trans hb)
  · have := hap.behind hb hlt
    have := hap'.lt
    omega

/-- The nodes of the functions inside are neither blocks nor exits nor statements. -/
theorem Bodies.region_not_part (h : Bodies s lo F) (hr : F.Region s x j) : ¬ F.Part j := by
  obtain ⟨a, g, m, ha, hg, hap, h1, h2⟩ := hr
  have habove := hap.above
  have hlt := hap.lt
  rintro (hb | ⟨k, hk, rfl⟩ | ⟨b, hb⟩)
  · have := (h.blockInside j hb).2
    omega
  · have := (h.exitInside k hk).2
    omega
  · rcases Int.lt_trichotomy a b with hab | rfl | hab
    · have := h.lines.order ha hb hab
      omega
    · obtain rfl := Option.some.inj (ha.symm.trans hb)
      omega
    · have := hap.behind hb hab
      omega

theorem Laid.region_inside (h : Laid s lo f F) (hr : F.Region s x j) :
    lo ≤ j.index ∧ j.index < F.list.index := by
  obtain ⟨a, g, m, ha, hg, hap, h1, h2⟩ := hr
  have := hap.above
  have := hap.lt
  have := h.mid_pos
  have := h.lineBelow ha
  exact ⟨by omega, by omega⟩

/-- In `v` all is as in `t`, apart from functions in statements that are not among `S`. -/
structure Steady (s : Store) (F : Frame) (t : Store) (S : List NodeId) (v : Store) : Prop where
  size : t.cells.size ≤ v.cells.size
  keeps : Keeps t v
  cell : ∀ j, j.index < t.cells.size → (∀ x, F.Region s x j → x ∈ S) → v.cell j = t.cell j

/-- The functions in the statements `S` are sequenced, and nothing else has changed. -/
structure Sequences (s : Store) (F : Frame) (S : List NodeId) (v v' : Store) : Prop where
  sequenced : ∀ x ∈ S, ∀ g, Closure s x g →
    Sequenced v' (fun j => F.Region s x j ∨ s.cells.size ≤ j.index) g
  alters : Alters (fun j => ∃ x ∈ S, F.Region s x j) v v'
  keeps : Keeps v v'

variable {t v v' : Store} {S S' : List NodeId}

theorem Steady.mono (h : Steady s F t S v) (hs : ∀ x ∈ S', x ∈ S) : Steady s F t S' v :=
  { h with cell := fun j hj hx => h.cell j hj fun x hr => hs x (hx x hr) }

theorem Steady.next (h : Steady s F t S v) (hs : Sequences s F S' v v') (hd : ∀ x ∈ S', x ∉ S) :
    Steady s F t S v' := by
  refine ⟨Nat.le_trans h.size hs.alters.size, h.keeps.trans hs.keeps, fun j hj hx => ?_⟩
  rw [hs.alters.cell j (Nat.lt_of_lt_of_le hj h.size), h.cell j hj hx]
  rintro ⟨x, hxs, hr⟩
  exact hd x hxs (hx x hr)

theorem Sequences.refl : Sequences s F [] v v := ⟨by simp, .refl _ _, fun _ _ => rfl⟩

theorem Sequences.trans (h : Laid s lo f F) (hf : f.index < s.cells.size) (h1 : Sequences s F S v v')
    {v'' : Store} (h2 : Sequences s F S' v' v'') (hd : ∀ x ∈ S', x ∉ S) : Sequences s F (S ++ S') v v'' := by
  refine ⟨fun x hx g hc => ?_, ?_, h1.keeps.trans h2.keeps⟩
  · rcases List.mem_append.mp hx with hx | hx
    · refine (h1.sequenced x hx g hc).keep h2.keeps h2.alters.size fun j hj hin => h2.alters.cell j hin ?_
      rintro ⟨y, hy, hr⟩
      rcases hj with hj | hj
      · exact hd y hy (Frame.region_unique hj hr ▸ hx)
      · have := (h.region_inside hr).2
        have := h.below
        omega
    · exact h2.sequenced x hx g hc
  · refine (h1.alters.mono fun j _ ⟨x, hx, hr⟩ => ?_).trans (h2.alters.mono fun j _ ⟨x, hx, hr⟩ => ?_)
    · exact ⟨x, List.mem_append_right _ hx, hr⟩
    · exact ⟨x, List.mem_append_left _ hx, hr⟩

/-- A walk through places with different statements sequences all of them. -/
theorem succeeds_forM_sequences {α : Type} (h : Laid s lo f F) (hf : f.index < s.cells.size)
    {go : α → Edit Unit} (S : α → List NodeId) {xs : List α}
    (step : ∀ x ∈ xs, ∀ v : Work Unit, Steady s F t (S x) v.store →
      Succeeds (go x) v fun _ v' => Sequences s F (S x) v.store v'.store)
    (apart : xs.Pairwise fun x y => ∀ z ∈ S y, z ∉ S x) (hw : Steady s F t (xs.flatMap S) w.store) :
    Succeeds (xs.forM go) w fun _ w' => Sequences s F (xs.flatMap S) w.store w'.store := by
  induction xs generalizing w with
  | nil => exact .pure .refl
  | cons x xs ih =>
    obtain ⟨hx, hrest⟩ := List.pairwise_cons.mp apart
    have hdis : ∀ z ∈ xs.flatMap S, z ∉ S x := by
      intro z hz
      obtain ⟨y, hy, hzy⟩ := List.mem_flatMap.mp hz
      exact hx y hy z hzy
    refine Succeeds.next (step x List.mem_cons_self w (hw.mono fun z => List.mem_append_left _))
      fun _ w1 h1 => ?_
    have hw1 := (hw.mono fun z => List.mem_append_right _).next h1 fun z hz hz' => hdis z hz' hz
    refine (ih (fun y hy => step y (List.mem_cons_of_mem _ hy)) hrest hw1).mono fun _ w2 h2 => ?_
    exact h1.trans h hf h2 hdis

/-! ## The walk through a function -/

/-- A function with the span from `lo` to `f` is in order, and nothing else has changed. -/
structure SequencesFunction (s : Store) (lo : Nat) (f : NodeId) (v v' : Store) : Prop where
  sequenced : Sequenced v' (fun j => (lo ≤ j.index ∧ j.index ≤ f.index) ∨ s.cells.size ≤ j.index) f
  alters : Alters (fun j => lo ≤ j.index ∧ j.index ≤ f.index) v v'
  keeps : Keeps v v'

/-- The walk can go through a function as long as it is as it was lifted in `s`. -/
def CanWalk (s : Store) (lo d : Nat) (f : NodeId) : Prop :=
  ∀ v : Work Unit, Keeps s v.store → s.cells.size ≤ v.store.cells.size →
    (∀ j : NodeId, lo ≤ j.index → j.index ≤ f.index → v.store.cell j = s.cell j) →
    Succeeds (walk loopEntryVisitor d f) v fun _ v' => SequencesFunction s lo f v.store v'.store

/-- The walk can go through the functions in the statements. -/
def Frame.CanWalk (F : Frame) (s : Store) (d : Nat) : Prop :=
  ∀ {a x g}, F.line a = some x → Closure s x g →
    ∃ lo, Apart F.mid F.line a x lo g ∧ Proofs.CanWalk s lo d g

/-- The exits of a function are rearranged in `t`, and the list of its blocks is `r`. -/
structure Placed (s : Store) (f : NodeId) (F : Frame) (A : Arrangement) (r : List NodeId)
    (t : Store) : Prop where
  keeps : Keeps s t
  function : t.cell f = s.cell f
  list : t.cell F.list = ⟨.list .statements r, none, false⟩
  arranged : Arranged s F A t
  extended : Extended s t F.blocks r
  region : ∀ x j, F.Region s x j → t.cell j = s.cell j

variable {A : Arrangement} {r : List NodeId} {k : Nat}

/-- Blocks, exits and statements stay as they are while functions inside are walked through. -/
theorem Steady.part (h : Laid s lo f F) (hw : Steady s F t S v) (hA : Arranged s F A t) (hj : F.Part j) :
    v.cell j = t.cell j :=
  hw.cell j (Nat.lt_of_lt_of_le (h.part_inside hj) hA.size) fun _ hr => absurd hj (h.region_not_part hr)

theorem Steady.new (h : Laid s lo f F) (hf : f.index < s.cells.size) (hw : Steady s F t S v)
    (hj : s.cells.size ≤ j.index) (hin : j.index < t.cells.size) : v.cell j = t.cell j := by
  refine hw.cell j hin fun x hr => ?_
  have := (h.region_inside hr).2
  have := h.below
  omega

theorem Placed.line_node (hP : Placed s f F A r t) (ha : F.line a = some x) : t.node x = s.node x := by
  rw [Store.node, hP.arranged.line ha, Store.node]

theorem succeeds_walk_statement (h : Laid s lo f F) (hP : Placed s f F A r t) (hsub : F.CanWalk s d)
    (hd : s.cells.size ≤ d) (ha : F.line a = some x) (hw : Steady s F t [x] w.store) :
    Succeeds (walk loopEntryVisitor (d + 2) x) w fun _ w' => Sequences s F [x] w.store w'.store := by
  have hk : Keeps s w.store := hP.keeps.trans hw.keeps
  rcases h.lines.content ha with hc | ⟨g, hc⟩
  · refine succeeds_walk_content hc hk (fun vs hv => ?_) (by omega) ⟨?_, .refl _ _, fun _ _ => rfl⟩
    · rw [Store.node, hw.part h hP.arranged (.inr (.inr ⟨a, ha⟩))]
      exact (hP.line_node ha).trans hv
    · intro y hy g hg
      obtain rfl := List.mem_singleton.mp hy
      exact absurd hg hc.not_closure
  · obtain ⟨lo', hap, hwalk⟩ := hsub ha hc
    have hregion : ∀ j : NodeId, lo' ≤ j.index → j.index ≤ g.index → F.Region s x j :=
      fun j h1 h2 => ⟨a, g, lo', ha, hc, hap, h1, h2⟩
    refine succeeds_walk_closure hc hk (by omega)
      ((hwalk w hk (Nat.le_trans hP.arranged.size hw.size) fun j h1 h2 => ?_).mono
        fun _ w' hs => ⟨?_, hs.keeps⟩)
    · have hr := hregion j h1 h2
      have hin : j.index < s.cells.size := by
        have := (h.lines.inside ha).2
        have := hap.lt
        omega
      rw [hw.cell j (Nat.lt_of_lt_of_le hin hP.arranged.size) ?_, hP.region x j hr]
      intro y hy
      rw [Frame.region_unique hy hr]
      exact List.mem_cons_self
    · refine ⟨fun y hy g' hg' => ?_, hs.alters.mono fun j _ hj => ?_, hs.keeps⟩
      · obtain rfl := List.mem_singleton.mp hy
        obtain rfl := hg'.unique hc
        exact hs.sequenced.mono fun j hj => hj.imp_left fun h => hregion j h.1 h.2
      · exact ⟨x, List.mem_cons_self, hregion j hj.1 hj.2⟩

/-- The statements of a block that stand for instructions. -/
def Frame.statementsOf (F : Frame) (s : Store) (A : Arrangement) (i : NodeId) : List NodeId :=
  if i.index < s.cells.size then A.contents (F.blocks.idxOf i) else []

theorem statementsOf_block (h : Laid s lo f F) (hi : F.blocks[k]? = some i) :
    F.statementsOf s A i = A.contents k := by
  obtain ⟨hlt, rfl⟩ := List.getElem?_eq_some_iff.mp hi
  rw [Frame.statementsOf, if_pos (h.part_inside (.inl (List.getElem_mem hlt))),
    h.nodup.idxOf_getElem k hlt]

theorem Extended.cases (h : Extended s t F.blocks r) (hi : i ∈ r) :
    (∃ k : Nat, F.blocks[k]? = some i) ∨ (s.cells.size ≤ i.index ∧ ∃ b, AddedBlock s t i b) := by
  by_cases hin : i.index < s.cells.size
  · refine .inl (List.mem_iff_getElem?.mp ?_)
    rw [← h.old]
    exact List.mem_filter.mpr ⟨hi, by simpa using hin⟩
  · exact .inr ⟨by omega, h.new i hi (by omega)⟩

theorem succeeds_walk_block (h : Laid s lo f F) (hf : f.index < s.cells.size)
    (hP : Placed s f F A r t) (hsub : F.CanWalk s d) (hd : s.cells.size ≤ d) (hi : i ∈ r)
    (hw : Steady s F t (F.statementsOf s A i) w.store) :
    Succeeds (walk loopEntryVisitor (d + 3) i) w fun _ w' =>
      Sequences s F (F.statementsOf s A i) w.store w'.store := by
  rcases hP.extended.cases hi with ⟨k, hk⟩ | ⟨hle, b, hb⟩
  · have hlt : k < F.ends.length := h.length ▸ (List.getElem?_eq_some_iff.mp hk).1
    rw [statementsOf_block h hk] at hw ⊢
    obtain ⟨y, e, hcell⟩ := hP.arranged.block k i hk
    obtain ⟨n, hexit, hisn, hparts⟩ := hP.arranged.exit k hlt
    have hnode := congrArg Cell.node ((hw.part h hP.arranged (.inl (List.mem_of_getElem? hk))).trans hcell)
    refine succeeds_walk_node hnode (by simp) (by simp) ?_
    refine .forM_append ?_
    have hflat : (A.contents k).flatMap (fun x => [x]) = A.contents k := List.flatMap_singleton' _
    have hcontents : Succeeds ((A.contents k).forM (walk loopEntryVisitor (d + 2))) w fun _ w' =>
        Sequences s F ((A.contents k).flatMap fun x => [x]) w.store w'.store := by
      refine succeeds_forM_sequences (t := t) h hf _ (fun x hx v hv => ?_) ?_ (by rw [hflat]; exact hw)
      · obtain ⟨a, ha⟩ := hP.arranged.lines k hlt x hx
        exact succeeds_walk_statement h hP hsub hd ha hv
      · refine (hP.arranged.nodup k hlt).imp fun hne z hz hz' => hne ?_
        exact (List.mem_singleton.mp hz').symm.trans (List.mem_singleton.mp hz)
    rw [hflat] at hcontents
    refine hcontents.mono fun _ w1 h1 => ?_
    have hw1 : Steady s F t [] w1.store := (hw.mono (by simp)).next h1 (by simp)
    have hexit1 := congrArg Cell.node
      ((hw1.part h hP.arranged (.inr (.inl (hP.arranged.perm k hlt)))).trans hexit)
    exact (succeeds_walk_exit hexit1 hisn hparts (hP.keeps.trans hw1.keeps) (by omega) (.pure h1)).bind
  · have hS : F.statementsOf s A i = [] := if_neg (by omega)
    rw [hS] at hw ⊢
    obtain ⟨x, hexit⟩ := hb.exit
    obtain ⟨y, hcontents, -, hplain, -⟩ := hb.contents
    have hnode :=
      congrArg Cell.node ((hw.new h hf hb.above.1 (inside_of_cell hb.cell (by simp))).trans hb.cell)
    have hexit' := congrArg Cell.node ((hw.new h hf hb.above.2 (inside_of_cell hexit (by simp))).trans hexit)
    refine succeeds_walk_node hnode (by simp) (by simp) ?_
    dsimp only [Node.children]
    rw [hcontents]
    refine .forM_same (fun c hc => ?_) .refl
    rcases List.mem_pair.mp hc with rfl | rfl
    · exact succeeds_walk_plain hplain hw.keeps (by omega) rfl
    · exact succeeds_walk_exit hexit' rfl .jump (hP.keeps.trans hw.keeps) (by omega) rfl

theorem Laid.part_span (h : Laid s lo f F) (hj : F.Part j) :
    lo ≤ j.index ∧ j.index < F.list.index := by
  have hmid := h.mid_pos
  have habove := h.above
  rcases hj with hb | ⟨k, hk, rfl⟩ | ⟨a, ha⟩
  · have := h.blockInside j hb
    omega
  · have := h.exitInside k hk
    omega
  · have := (h.lines.inside ha).1
    have := h.lineBelow ha
    omega

theorem Laid.not_part_list (h : Laid s lo f F) : ¬ F.Part F.list :=
  fun hj => Nat.lt_irrefl _ (h.part_span hj).2

theorem Laid.not_part_function (h : Laid s lo f F) : ¬ F.Part f := by
  intro hj
  have := (h.part_span hj).2
  have := h.below
  omega

/-- Once the exits are rearranged and the list of blocks is set, the function is placed. -/
theorem placed_setItems (h : Laid s lo f F) (hf : f.index < s.cells.size) (hk : Keeps s v)
    (hsame : ∀ j : NodeId, lo ≤ j.index → j.index ≤ f.index → v.cell j = s.cell j)
    (hA : Arranged s F A v') (ha : Alters (F.Moves s) v v') (hk' : Keeps v v')
    (hext : Extended s v' F.blocks r) (hin : f.index < v.cells.size) :
    Placed s f F A r (v'.setNode F.list (.list .statements r)) := by
  have hmid := h.mid_pos
  have habove := h.above
  have hbelow := h.below
  have hlist : v'.cell F.list = ⟨.list .statements F.blocks, none, false⟩ := by
    rw [ha.cell _ (by omega) fun hm => h.not_part_list hm.part, hsame _ (by omega) (by omega), h.list]
  have hset : Keeps v' (v'.setNode F.list (.list .statements r)) := by
    intro j hj
    refine cell_setNode_of_ne ?_
    rintro rfl
    rw [Store.node, hlist] at hj
    cases hj
  refine ⟨(hk.trans hk').trans hset, ?_, ?_, ?_, ⟨hext.old, fun i hi hle => ?_⟩, fun x j hr => ?_⟩
  · have hne : f ≠ F.list := by
      rintro rfl
      omega
    rw [cell_setNode_of_ne hne, ha.cell f hin fun hm => h.not_part_function hm.part,
      hsame f (by omega) (Nat.le_refl _)]
  · rw [cell_setNode_self (inside_of_cell hlist (by simp)), hlist]
  · refine hA.keep (Nat.le_of_eq (size_setNode ..).symm) fun j hj => cell_setNode_of_ne ?_
    rintro rfl
    exact h.not_part_list hj
  · obtain ⟨b, hb⟩ := hext.new i hi hle
    exact ⟨b, hb.keep (alters_setNode (by omega)) hset⟩
  · have hspan := h.region_inside hr
    have hne : j ≠ F.list := by
      rintro rfl
      omega
    rw [cell_setNode_of_ne hne, ha.cell j (by omega) fun hm => h.region_not_part hr hm.part,
      hsame j hspan.1 (by omega)]

theorem Placed.apart (h : Laid s lo f F) (hP : Placed s f F A r t) :
    r.Pairwise fun i j => ∀ z ∈ F.statementsOf s A j, z ∉ F.statementsOf s A i := by
  have hold : F.blocks.Pairwise fun i j => ∀ z ∈ F.statementsOf s A j, z ∉ F.statementsOf s A i := by
    refine List.pairwise_iff_getElem.mpr fun j k hj hk hjk z hz hz' => ?_
    rw [statementsOf_block h (List.getElem?_eq_getElem hk)] at hz
    rw [statementsOf_block h (List.getElem?_eq_getElem hj)] at hz'
    have := hP.arranged.apart j k (h.length ▸ hj) (h.length ▸ hk) z hz' hz
    omega
  rw [← hP.extended.old] at hold
  refine (List.pairwise_filter.mp hold).imp fun hij z hz hz' => ?_
  have hin : ∀ {i : NodeId}, z ∈ F.statementsOf s A i → i.index < s.cells.size := by
    intro i hi
    by_contra hge
    rw [Frame.statementsOf, if_neg hge] at hi
    cases hi
  exact hij (by simpa using hin hz') (by simpa using hin hz) z hz hz'

/-- The walk rearranges the exits of a function and then goes through its blocks. -/
theorem succeeds_walk_list (h : Laid s lo f F) (hf : f.index < s.cells.size) (hsub : F.CanWalk s d)
    (hd : s.cells.size ≤ d) (hk : Keeps s w.store) (hsize : s.cells.size ≤ w.store.cells.size)
    (hsame : ∀ j : NodeId, lo ≤ j.index → j.index ≤ f.index → w.store.cell j = s.cell j) :
    Succeeds (walk loopEntryVisitor (d + 4) F.list) w fun _ w' => ∃ A r t,
      Placed s f F A r t ∧ Sequences s F (r.flatMap (F.statementsOf s A)) t w'.store ∧
      Alters (fun j => lo ≤ j.index ∧ j.index ≤ f.index) w.store t ∧ Keeps w.store t := by
  have hmid := h.mid_pos
  have habove := h.above
  have hbelow := h.below
  have hlist : w.store.node F.list = .list .statements F.blocks := by
    rw [Store.node, hsame _ (by omega) (by omega), h.list]
  refine Succeeds.bind (.pure ?_)
  refine (succeeds_node ?_).bind
  rw [hlist]
  have henter : Succeeds (loopEntryVisitor.enter F.list) w fun _ w' => ∃ A r,
      Placed s f F A r w'.store ∧ Alters (fun j => lo ≤ j.index ∧ j.index ≤ f.index) w.store w'.store ∧
      Keeps w.store w'.store := by
    refine (succeeds_node ?_).bind
    rw [hlist]
    refine (succeeds_rearrangeAll h.toBodies hsize fun j hj => ?_).next ?_
    · have := h.part_span hj
      exact hsame j this.1 (by omega)
    rintro r w1 ⟨⟨A, hA⟩, ha, hk1, hext⟩
    have hlist1 : w1.store.node F.list = .list .statements F.blocks := by
      rw [ha.node (by rw [hlist]; simp) fun hm => h.not_part_list hm.part, hlist]
    have hP := placed_setItems h hf hk hsame hA ha hk1 hext (by omega)
    refine (succeeds_node ?_).bind
    rw [hlist1]
    refine succeeds_modifyStore ⟨A, r, hP, ?_, ?_⟩
    · refine (ha.mono fun j _ hj => ?_).trans (alters_setNode ⟨by omega, by omega⟩)
      have := h.part_span hj.part
      exact ⟨this.1, by omega⟩
    · refine hk1.trans fun j hj => cell_setNode_of_ne ?_
      rintro rfl
      rw [hlist1] at hj
      cases hj
  refine henter.next ?_
  rintro _ w1 ⟨A, r, hP, ha, hk1⟩
  refine (succeeds_node ?_).bind
  rw [show w1.store.node F.list = .list .statements r from congrArg Cell.node hP.list]
  have hblocks : Succeeds (r.forM (walk loopEntryVisitor (d + 3))) w1 fun _ w' =>
      Sequences s F (r.flatMap (F.statementsOf s A)) w1.store w'.store :=
    succeeds_forM_sequences (t := w1.store) h hf _
      (fun i hi v hv => succeeds_walk_block h hf hP hsub hd hi hv) (hP.apart h)
      ⟨Nat.le_refl _, fun _ _ => rfl, fun _ _ _ => rfl⟩
  exact hblocks.next fun _ w2 h2 => .pure ⟨A, r, w1.store, hP, h2, ha, hk1⟩

/-! ## The function afterwards -/

/-- Every function in a statement has its span. -/
def Frame.Spanned (F : Frame) (s : Store) : Prop :=
  ∀ {a x g}, F.line a = some x → Closure s x g → ∃ lo, Apart F.mid F.line a x lo g

theorem Frame.Spanned.region (h : F.Spanned s) (ha : F.line a = some x) (hc : Closure s x g) :
    F.Region s x g := by
  obtain ⟨lo, hap⟩ := h ha hc
  exact ⟨a, g, lo, ha, hc, hap, hap.le, Nat.le_refl _⟩

theorem Placed.closure (h : Laid s lo f F) (hP : Placed s f F A r t) (hspan : F.Spanned s)
    (ha : F.line a = some x) : Closure t x g ↔ Closure s x g := by
  have hkeep : ∀ {g}, Closure s x g → Closure t x g := fun hc =>
    hc.keep hP.keeps hP.arranged.size (hP.region x _ (hspan.region ha hc))
  refine ⟨fun hc => ?_, hkeep⟩
  rcases h.lines.content ha with hcontent | ⟨g', hc'⟩
  · refine absurd hc (Content.not_closure (hcontent.keep hP.keeps hP.arranged.size fun vs hv => ?_))
    exact (hP.line_node ha).trans hv
  · obtain rfl := hc.unique (hkeep hc')
    exact hc'

theorem Placed.block (h : Laid s lo f F) (hf : f.index < s.cells.size) (hP : Placed s f F A r t)
    (hspan : F.Spanned s) (hi : i ∈ r) :
    ∃ b, SequencedBlock t (fun j => F.Part j ∨ s.cells.size ≤ j.index) i b ∧
      ∀ x ∈ b.contents, ∀ g, Closure t x g → ∃ a, F.line a = some x := by
  rcases hP.extended.cases hi with ⟨k, hk⟩ | ⟨hle, b, hb⟩
  · have hlt : k < F.ends.length := h.length ▸ (List.getElem?_eq_some_iff.mp hk).1
    obtain ⟨y, e, hcell⟩ := hP.arranged.block k i hk
    obtain ⟨n, hexit, hisn, hparts⟩ := hP.arranged.exit k hlt
    refine ⟨_, ⟨hcell, ⟨n, _, hexit, hisn, hparts.keep hP.keeps hP.arranged.size⟩, fun x hx => ?_,
      .inl (.inl (List.mem_of_getElem? hk)), .inl (.inr (.inl (hP.arranged.perm k hlt))), fun x hx => ?_⟩,
      fun x hx g hc => hP.arranged.lines k hlt x hx⟩
    · obtain ⟨a, ha⟩ := hP.arranged.lines k hlt x hx
      rcases h.lines.content ha with hc | ⟨g, hc⟩
      · exact .inl (hc.keep hP.keeps hP.arranged.size fun vs hv => (hP.line_node ha).trans hv)
      · exact .inr ⟨g, (hP.closure h hspan ha).mpr hc⟩
    · exact .inl (.inr (.inr (hP.arranged.lines k hlt x hx)))
  · obtain ⟨x, hexit⟩ := hb.exit
    obtain ⟨y, hcontents, -, hplain, hst, hy⟩ := hb.contents
    have hthree : 3 ≤ t.cells.size := by
      have := h.mid_pos
      have := h.above
      have := h.below
      have := hP.arranged.size
      omega
    have hcontent : Content t y := .plain (hplain.keep (fun _ _ => rfl) hthree) hst
    have hy' : ∀ z ∈ b.contents, z = y := by simp [hcontents]
    refine ⟨b, ⟨hb.cell, ⟨_, _, hexit, rfl, .jump⟩, fun z hz => .inl (hy' z hz ▸ hcontent),
      .inr hb.above.1, .inr hb.above.2, fun z hz => .inr (hy' z hz ▸ hy)⟩, fun z hz g hc => ?_⟩
    rw [hy' z hz] at hc
    exact absurd hc hcontent.not_closure

theorem flatMap_filter_eq {α β : Type} {p : α → Bool} {f : α → List β} {xs : List α}
    (h : ∀ x ∈ xs, ¬ p x = true → f x = []) : xs.flatMap f = (xs.filter p).flatMap f := by
  induction xs with
  | nil => rfl
  | cons x xs ih =>
    have hrest := ih fun y hy => h y (List.mem_cons_of_mem _ hy)
    by_cases hx : p x = true
    · rw [List.filter_cons_of_pos hx, List.flatMap_cons, List.flatMap_cons, hrest]
    · rw [List.filter_cons_of_neg hx, List.flatMap_cons, h x List.mem_cons_self hx, hrest, List.nil_append]

theorem Bodies.exitAddress_le (h : Bodies s lo F) (hk : k < F.ends.length) :
    F.exitAddress k ≤ firstOf F.ends (k + 1) := by
  have := h.stopOf_le hk
  rw [firstOf_succ, Frame.exitAddress]
  split <;> omega

theorem Bodies.firstOf_le_exitAddress (h : Bodies s lo F) (hk : k < F.ends.length) :
    firstOf F.ends k ≤ F.exitAddress k := by
  have := (stopOf_inside h.wellFormed.branching h.wellFormed.iteratorsCalled h.blockEnds hk).1
  have := h.blockEnds.firstOf_le_lastOf hk
  rw [Frame.exitAddress]
  split <;> omega

theorem addressesOf_added (hb : AddedBlock s t i b) : addressesOf t i = [] := by
  obtain ⟨x, hexit⟩ := hb.exit
  obtain ⟨y, hcontents, hy, -⟩ := hb.contents
  rw [addressesOf, show t.node i = .block b from congrArg Cell.node hb.cell]
  simp [hcontents, hexit, hy]

theorem addressesOf_block (hA : Arranged s F A t) (hlt : k < F.ends.length) (hk : F.blocks[k]? = some i) :
    addressesOf t i = (A.contents k).map A.address ++ [F.exitAddress k] := by
  obtain ⟨y, e, hcell⟩ := hA.block k i hk
  obtain ⟨n, hexit, -⟩ := hA.exit k hlt
  have hlines : (A.contents k).filterMap (fun x => (t.cell x).address) = (A.contents k).map A.address := by
    rw [← List.filterMap_eq_map]
    refine List.filterMap_congr fun x hx => ?_
    obtain ⟨a, ha⟩ := hA.lines k hlt x hx
    rw [hA.line ha]
    rfl
  rw [addressesOf, show t.node i = _ from congrArg Cell.node hcell]
  simp [List.filterMap_append, hlines, hexit]

theorem mem_addressesOf_block (h : Laid s lo f F) (hA : Arranged s F A t) (hlt : k < F.ends.length)
    (hk : F.blocks[k]? = some i) (ha : a ∈ addressesOf t i) :
    firstOf F.ends k ≤ a ∧ a ≤ F.exitAddress k := by
  rw [addressesOf_block hA hlt hk] at ha
  rcases List.mem_append.mp ha with ha | ha
  · obtain ⟨x, hx, rfl⟩ := List.mem_map.mp ha
    exact hA.bounds k hlt x hx
  · rw [List.mem_singleton.mp ha]
    exact ⟨h.firstOf_le_exitAddress hlt, Int.le_refl _⟩

theorem Placed.ascending (h : Laid s lo f F) (hP : Placed s f F A r t) :
    (r.flatMap (addressesOf t)).Pairwise (· ≤ ·) ∧ ∀ a ∈ r.flatMap (addressesOf t), 0 ≤ a := by
  -- Blocks that have been added have no addresses.
  have hold : r.flatMap (addressesOf t) = F.blocks.flatMap (addressesOf t) := by
    rw [← hP.extended.old]
    refine flatMap_filter_eq fun i hi hge => ?_
    obtain ⟨b, hb⟩ := hP.extended.new i hi (by simpa using hge)
    exact addressesOf_added hb
  have hblock : ∀ k (hk : k < F.blocks.length), k < F.ends.length ∧ F.blocks[k]? = some F.blocks[k] :=
    fun k hk => ⟨h.length ▸ hk, List.getElem?_eq_getElem hk⟩
  rw [hold, List.pairwise_flatMap]
  refine ⟨⟨fun i hi => ?_, List.pairwise_iff_getElem.mpr fun j k hj hk hjk a ha b hb => ?_⟩,
    fun a ha => ?_⟩
  · obtain ⟨k, hk⟩ := List.mem_iff_getElem?.mp hi
    have hlt : k < F.ends.length := h.length ▸ (List.getElem?_eq_some_iff.mp hk).1
    rw [addressesOf_block hP.arranged hlt hk]
    refine List.pairwise_append.mpr ⟨List.pairwise_map.mpr (hP.arranged.sorted k hlt),
      List.pairwise_singleton _ _, fun a ha b hb => ?_⟩
    obtain ⟨x, hx, rfl⟩ := List.mem_map.mp ha
    rw [List.mem_singleton.mp hb]
    exact (hP.arranged.bounds k hlt x hx).2
  · obtain ⟨hj', hjb⟩ := hblock j hj
    obtain ⟨hk', hkb⟩ := hblock k hk
    have hle := (mem_addressesOf_block h hP.arranged hj' hjb ha).2
    have hle' := (mem_addressesOf_block h hP.arranged hk' hkb hb).1
    have hnext := h.exitAddress_le hj'
    have hfirst := h.blockEnds.firstOf_le (show j + 1 ≤ k by omega) (by omega)
    omega
  · obtain ⟨i, hi, ha⟩ := List.mem_flatMap.mp ha
    obtain ⟨k, hk⟩ := List.mem_iff_getElem?.mp hi
    have hlt : k < F.ends.length := h.length ▸ (List.getElem?_eq_some_iff.mp hk).1
    have := (mem_addressesOf_block h hP.arranged hlt hk ha).1
    have := h.blockEnds.firstOf_pos (k := k) (by omega)
    omega

theorem Placed.sequenced (h : Laid s lo f F) (hf : f.index < s.cells.size) (hP : Placed s f F A r t)
    (hspan : F.Spanned s) (hs : Sequences s F (r.flatMap (F.statementsOf s A)) t v) :
    Sequenced v (fun j => (lo ≤ j.index ∧ j.index ≤ f.index) ∨ s.cells.size ≤ j.index) f := by
  have hmid := h.mid_pos
  have habove := h.above
  have hbelow := h.below
  have hsteady : Steady s F t [] v :=
    Steady.next ⟨Nat.le_refl _, fun _ _ => rfl, fun _ _ _ => rfl⟩ hs (by simp)
  have hown : ∀ j, F.Part j ∨ s.cells.size ≤ j.index → j.index < t.cells.size → v.cell j = t.cell j := by
    rintro j (hj | hj) hin
    · exact hsteady.part h hP.arranged hj
    · exact hsteady.new h hf hj hin
  have houter : ∀ j : NodeId, F.list.index ≤ j.index → j.index ≤ f.index → v.cell j = t.cell j := by
    intro j h1 h2
    refine hsteady.cell j (by have := hP.arranged.size; omega) fun x hr => ?_
    have := (h.region_inside hr).2
    omega
  -- The functions in the blocks, where they come from and what has become of them.
  have hsub : ∀ i ∈ r, ∀ b, t.node i = .block b → ∀ x ∈ b.contents, ∀ g, Closure t x g →
      F.Region s x g ∧ Sequenced v (fun j => F.Region s x j ∨ s.cells.size ≤ j.index) g := by
    intro i hi b hb x hx g hc
    obtain ⟨b', hb', hline⟩ := hP.block h hf hspan hi
    obtain rfl : b' = b := Node.block.inj ((congrArg Cell.node hb'.cell).symm.trans hb)
    obtain ⟨a, ha⟩ := hline x hx g hc
    have hc' := (hP.closure h hspan ha).mp hc
    refine ⟨hspan.region ha hc', hs.sequenced x (List.mem_flatMap.mpr ⟨i, hi, ?_⟩) g hc'⟩
    rcases hP.extended.cases hi with ⟨k, hk⟩ | ⟨hle, c, hadd⟩
    · rw [statementsOf_block h hk]
      obtain ⟨y, e, hcell⟩ := hP.arranged.block k i hk
      rw [Node.block.inj (hb.symm.trans (congrArg Cell.node hcell))] at hx
      exact hx
    · obtain rfl : c = b' := Node.block.inj ((congrArg Cell.node hadd.cell).symm.trans hb)
      obtain ⟨y, hcontents, -, -, -, hy⟩ := hadd.contents
      rw [hcontents, List.mem_singleton] at hx
      have := (h.lines.inside ha).2
      rw [hx] at this
      omega
  have hblock : ∀ i ∈ r, ∃ b, t.node i = .block b ∧
      SequencedBlock t (fun j => F.Part j ∨ s.cells.size ≤ j.index) i b := by
    intro i hi
    obtain ⟨b, hb, -⟩ := hP.block h hf hspan hi
    exact ⟨b, congrArg Cell.node hb.cell, hb⟩
  have hfun : ∀ {i b}, i ∈ r → t.node i = .block b → ∀ x ∈ b.contents, ∀ g, Closure t x g →
      ∃ as ss scope, v.cell g = ⟨.function as ss scope, none, false⟩ := fun hi hb x hx g hc =>
    (hsub _ hi _ hb x hx g hc).2.function
  have haddr : r.flatMap (addressesOf v) = r.flatMap (addressesOf t) :=
    List.flatMap_congr fun i hi => by
      obtain ⟨b, -, hb⟩ := hblock i hi
      exact hb.addressesOf_keep hown
  have hback : ∀ i ∈ r, ∀ b, v.node i = .block b → ∀ x ∈ b.contents, ∀ g, Closure v x g →
      t.node i = .block b ∧ Closure t x g := by
    intro i hi b hb x hx g hc
    obtain ⟨b', hnode, hb'⟩ := hblock i hi
    obtain rfl : b' = b := by
      rw [Store.node, hown i hb'.home.1 (inside_of_cell hb'.cell (by simp)), hb'.cell] at hb
      exact Node.block.inj hb
    exact ⟨hnode, hb'.closure_of_keep hs.keeps hs.alters.size hown (hfun hi hnode) hx hc⟩
  obtain ⟨as, hfcell, has⟩ := h.function
  obtain ⟨hasc, hpos⟩ := hP.ascending h
  have hfunction := (houter f (by omega) (Nat.le_refl _)).trans (hP.function.trans hfcell)
  have hlist := (houter F.list (Nat.le_refl _) (by omega)).trans hP.list
  refine .tree hfunction (has.keep (hP.keeps.trans hs.keeps) (Nat.le_trans hP.arranged.size hs.alters.size))
    hlist ⟨.inl ⟨by omega, Nat.le_refl _⟩, .inl ⟨by omega, by omega⟩⟩ (fun i hi => ?_) (haddr ▸ hasc)
    (haddr ▸ hpos) (fun i hi b hb x hx g hc => ?_) (fun i hi b hb x hx g hc => ?_)
  · obtain ⟨b, hnode, hb⟩ := hblock i hi
    refine ⟨b, (hb.keep hs.keeps hs.alters.size hown (hfun hi hnode)).mono fun j hj => ?_⟩
    refine hj.imp_left fun hp => ?_
    have := h.part_span hp
    omega
  · obtain ⟨hnode, hc'⟩ := hback i hi b hb x hx g hc
    have := (h.region_inside (hsub i hi b hnode x hx g hc').1).2
    omega
  · obtain ⟨hnode, hc'⟩ := hback i hi b hb x hx g hc
    refine (hsub i hi b hnode x hx g hc').2.mono fun j hj => hj.imp_left fun hr => ?_
    have := h.region_inside hr
    omega

/-- The walk can go through every function that has been lifted. -/
theorem Lifted.canWalk (h : Lifted s lo f) (hf : f.index < s.cells.size)
    (hd : 5 * (f.index + 1) + s.cells.size ≤ d) : CanWalk s lo d f := by
  induction h generalizing d with
  | @tree lo f F start laid apart sub ih =>
    intro w hk hsize hsame
    obtain ⟨d, rfl⟩ : ∃ d', d = d' + 5 := ⟨d - 5, by omega⟩
    have hmid := laid.mid_pos
    have habove := laid.above
    have hbelow := laid.below
    have hspan : F.Spanned s := fun ha hc => ⟨_, apart ha hc⟩
    have hsub : F.CanWalk s d := by
      intro a x g ha hc
      have hap := apart ha hc
      have := hap.lt
      have := laid.lineBelow ha
      exact ⟨_, hap, ih ha hc (by omega) (by omega)⟩
    obtain ⟨as, hfcell, has⟩ := laid.function
    have hnode := congrArg Cell.node ((hsame f (by omega) (Nat.le_refl _)).trans hfcell)
    refine succeeds_walk_node hnode (by simp) (by simp) ?_
    refine (succeeds_walk_plain has.plain hk (by omega) ?_).bind
    refine (succeeds_walk_list laid hf hsub (by omega) hk hsize hsame).next
      fun _ w1 ⟨A, r, t, hP, hs, ha, hk1⟩ => .pure ?_
    refine ⟨hP.sequenced laid hf hspan hs, ha.trans (hs.alters.mono fun j _ ⟨x, _, hr⟩ => ?_),
      hk1.trans hs.keeps⟩
    have := laid.region_inside hr
    omega

/-- The loop tests of a lifted tree can be moved. -/
theorem succeeds_moveLoopTests (h : Lifted w.store lo f) (hf : f.index < w.store.cells.size) :
    Succeeds (moveLoopTests f) w fun _ w' => Sequenced w'.store (fun _ => True) f := by
  have hwalk : CanWalk w.store lo w.store.depth f := h.canWalk hf (by rw [Store.depth]; omega)
  refine (succeeds_get ?_).bind
  refine (hwalk w (fun _ _ => rfl) (Nat.le_refl _) fun _ _ _ => rfl).mono fun _ w' hs => ?_
  exact hs.sequenced.mono fun _ _ => trivial

end LuaLift.Proofs
