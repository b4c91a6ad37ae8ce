import LuaLift.Proofs.StatementLists

/-! # Joining chains of blocks

Joining moves the statements of each block of a chain to the next one, so that the last block ends up
with those of the whole chain, and gives them to the list that held the chain. Lists that share no
block are joined one after the other. -/
namespace LuaLift.Proofs
open Tree Flow

variable {w : Work Unit} {s s' : Store} {i j t : NodeId} {held ks ls xs ys : List NodeId}
  {exit exit' : Node} {rows : Rows}
  {P : NodeId → Prop}

/-! ## New numbers of blocks -/

/-- Blocks have got other indices. -/
structure Reindexes (s s' : Store) : Prop where
  blocks : ∀ i b, s.node i = .block b → ∃ k, s'.node i = .block { b with index := k }
  others : ∀ i, (∀ b, s.node i ≠ .block b) → s'.node i = s.node i

theorem Reindexes.refl : Reindexes s s := ⟨fun _ b h => ⟨b.index, h⟩, fun _ _ => rfl⟩

theorem Reindexes.trans {s'' : Store} (h : Reindexes s s') (h' : Reindexes s' s'') : Reindexes s s'' := by
  refine ⟨fun i b hi => ?_, fun i hi => ?_⟩
  · obtain ⟨k, hk⟩ := h.blocks i b hi
    obtain ⟨k', hk'⟩ := h'.blocks i _ hk
    exact ⟨k', hk'⟩
  · have he := h.others i hi
    rw [h'.others i (he ▸ hi), he]

theorem Reindexes.othersKept (h : Reindexes s s') : OthersKept s s' := by
  rintro i _ rfl - hb
  exact h.others i hb

theorem Reindexes.blockOf (h : Reindexes s s') (hexit : exit.isExit = true) (hb : BlockOf s i held exit) :
    BlockOf s' i held exit := by
  obtain ⟨b, hb, rfl, rfl⟩ := hb
  obtain ⟨k, hk⟩ := h.blocks i b hb
  exact ⟨_, hk, rfl, h.others _ fun x hx => by rw [hx] at hexit; cases hexit⟩

theorem succeeds_renumber (blocks : List NodeId) (w : Work Unit) :
    Succeeds (renumber blocks) w fun _ w' => Reindexes w.store w'.store := by
  refine Succeeds.forM (fun _ v => Reindexes w.store v.store) .refl fun _ ⟨i, k⟩ v _ hv => ?_
  refine Succeeds.bind (succeeds_node ?_)
  split
  · rename_i b hb
    have hsize : i.index < v.store.cells.size := inside_of_node (by rw [hb]; nofun)
    refine succeeds_modifyStore (hv.trans ⟨fun j x hj => ?_, fun j hj => ?_⟩)
    · by_cases hji : j = i
      · subst hji
        rw [hb] at hj; cases hj
        exact ⟨k, node_setNode_self hsize⟩
      · exact ⟨x.index, by rw [node_setNode_of_ne hji, hj]⟩
    · exact node_setNode_of_ne fun hji => hj b (hji ▸ hb)
  · exact .pure hv

theorem succeeds_renumberAll (h : ∀ t ∈ ls, ∃ ks, w.store.node t = .list .statements ks) :
    Succeeds (ls.forM fun t => do renumber (← Pass.items t)) w fun _ w' => Reindexes w.store w'.store := by
  refine Succeeds.forM (fun _ v => Reindexes w.store v.store) .refl fun k t v ht hv => ?_
  obtain ⟨ks, hks⟩ := h t (List.mem_of_getElem? ht)
  have hnode : v.store.node t = .list .statements ks := hv.othersKept _ _ hks nofun nofun
  have hitems : Returns (Pass.items t) v ks v := by
    refine Returns.ofBind (rfl : Returns (Pass.node t) v _ _) ?_
    rw [hnode]
    rfl
  exact Succeeds.bind ⟨_, _, hitems, (succeeds_renumber ks v).mono fun _ _ h => hv.trans h⟩

/-! ## Chains -/

theorem BlockOf.alters (h : BlockOf s i held exit) (ha : Alters P s s') (hi : ¬ P i)
    (hP : ∀ x, P x → (s.node x).isExit = false) (hexit : exit.isExit = true) : BlockOf s' i held exit := by
  obtain ⟨b, hb, rfl, rfl⟩ := h
  refine ⟨b, ?_, rfl, ha.node (fun he => ?_) fun hp => ?_⟩
  · rw [ha.node (by rw [hb]; nofun) hi, hb]
  · rw [he] at hexit; cases hexit
  · rw [hP _ hp] at hexit; cases hexit

theorem Chained.isBlock (h : Chained s ks xs) : ∀ i ∈ ks, ∃ b, s.node i = .block b := by
  induction h with
  | last hb =>
    intro i hi
    rw [List.mem_singleton.mp hi]
    exact ⟨_, hb.choose_spec.1⟩
  | cons hb _ ih =>
    intro i hi
    rcases List.mem_cons.mp hi with rfl | hi
    · exact ⟨_, hb.choose_spec.1⟩
    · exact ih i hi

theorem Chained.det (h : Chained s ks xs) (h' : Chained s ks ys) : xs = ys := by
  induction h generalizing ys with
  | last hb =>
    cases h' with
    | last hb' => exact (hb.det hb').1
  | cons hb _ ih =>
    cases h' with
    | cons hb' hrest => rw [(hb.det hb').1, ih hrest]

theorem Chained.last_stop (h : Chained s (i :: ks) xs) :
    ∃ held f, BlockOf s (ks.getLast?.getD i) held (.stop f) := by
  induction ks generalizing i xs with
  | nil =>
    cases h with
    | last hb => exact ⟨_, _, hb⟩
  | cons j ks ih =>
    cases h with
    | cons _ hrest =>
      rw [List.getLast?_cons, Option.getD_some]
      exact ih hrest

theorem Chained.prepend (h : Chained s (i :: ks) xs)
    (hi : ∀ ys exit, exit.isExit = true → BlockOf s i ys exit → BlockOf s' i (held ++ ys) exit)
    (hks : ∀ j ∈ ks, ∀ ys exit, exit.isExit = true → BlockOf s j ys exit → BlockOf s' j ys exit) :
    Chained s' (i :: ks) (held ++ xs) := by
  cases h with
  | last hb => exact .last (hi _ _ rfl hb)
  | cons hb hrest =>
    rw [← List.append_assoc]
    exact .cons (hi _ _ rfl hb) (hrest.carry hks)

theorem succeeds_moveItems (h : BlockOf w.store i held exit) (hexit : exit.isExit = true)
    (h' : BlockOf w.store j ys exit') (hexit' : exit'.isExit = true) (hne : i ≠ j) :
    Succeeds (do
      Pass.setItems j ((← Pass.items i) ++ (← Pass.items j))
      Pass.setItems i []) w fun _ w' =>
        Alters (fun x => x = i ∨ x = j) w.store w'.store ∧ BlockOf w'.store j (held ++ ys) exit' := by
  refine Succeeds.bind ⟨_, _, h.items, Succeeds.bind ⟨_, _, h'.items, ?_⟩⟩
  refine (succeeds_setItems h' hexit').next fun _ w1 ⟨hj, b, hb, hw1⟩ => ?_
  have hi : BlockOf w1.store i held exit := by
    rw [hw1]
    refine h.alters (P := (· = j)) (alters_setNode rfl) hne ?_ hexit
    rintro x rfl
    rw [hb]
    rfl
  refine (succeeds_setItems hi hexit).mono fun _ w2 ⟨_, b', hb', hw2⟩ => ?_
  rw [hw2]
  refine ⟨?_, hj.alters (P := (· = i)) (alters_setNode rfl) hne.symm ?_ hexit'⟩
  · rw [hw1]
    exact (alters_setNode (.inr rfl)).trans (alters_setNode (.inl rfl))
  · rintro x rfl
    rw [hb']
    rfl

theorem succeeds_joinFrom (h : Chained w.store (i :: ks) xs) (hnodup : (i :: ks).Nodup) :
    Succeeds (joinFrom i ks) w fun _ w' =>
      Alters (· ∈ i :: ks) w.store w'.store ∧ ∃ f, BlockOf w'.store (ks.getLast?.getD i) xs (.stop f) := by
  induction ks generalizing i xs w with
  | nil =>
    cases h with
    | last hb => exact .pure ⟨.refl _ _, _, hb⟩
  | cons j ks ih =>
    cases h with
    | @cons _ _ _ held xs _ hb hrest =>
      obtain ⟨hi, hnodup'⟩ := List.nodup_cons.mp hnodup
      obtain ⟨hj, -⟩ := List.nodup_cons.mp hnodup'
      obtain ⟨ys, exit, hexit, hbj⟩ : ∃ ys exit, exit.isExit = true ∧ BlockOf w.store j ys exit := by
        cases hrest with
        | last hb => exact ⟨_, _, rfl, hb⟩
        | cons hb _ => exact ⟨_, _, rfl, hb⟩
      have hne : i ≠ j := fun he => hi (he ▸ List.mem_cons_self)
      have hnotExit : ∀ x, x = i ∨ x = j → (w.store.node x).isExit = false := by
        rintro x (rfl | rfl)
        · rw [hb.choose_spec.1]; rfl
        · rw [hbj.choose_spec.1]; rfl
      have hmoved : ∀ {w1 : Work Unit}, Alters (fun x => x = i ∨ x = j) w.store w1.store →
          BlockOf w1.store j (held ++ ys) exit → Chained w1.store (j :: ks) (held ++ xs) := by
        intro w1 ha hbj1
        refine hrest.prepend (fun ys' exit' _ hbj' => ?_) fun x hx _ _ hexit' hbx =>
          hbx.alters ha ?_ hnotExit hexit'
        · obtain ⟨rfl, rfl⟩ := hbj.det hbj'
          exact hbj1
        · rintro (rfl | rfl)
          · exact hi (List.mem_cons_of_mem _ hx)
          · exact hj hx
      refine Succeeds.bind ⟨_, _, hb.exitNode, Succeeds.bind (succeeds_require (beq_self_eq_true j) ?_)⟩
      suffices hjoin : Succeeds ((do
          Pass.setItems j ((← Pass.items i) ++ (← Pass.items j))
          Pass.setItems i []) >>= fun _ => joinFrom j ks) w
            fun _ w' => Alters (· ∈ i :: j :: ks) w.store w'.store ∧
            ∃ f, BlockOf w'.store ((j :: ks).getLast?.getD i) (held ++ xs) (.stop f) by
        simpa only [bind_assoc] using hjoin
      refine (succeeds_moveItems hb rfl hbj hexit hne).next fun _ w1 ⟨ha, hbj1⟩ => ?_
      refine (ih (hmoved ha hbj1) hnodup').mono fun _ w2 ⟨ha', hlast⟩ => ⟨?_, ?_⟩
      · exact (ha.mono fun x _ hx => by rcases hx with rfl | rfl <;> simp).trans
          (ha'.mono fun x _ hx => List.mem_cons_of_mem _ hx)
      · rwa [List.getLast?_cons, Option.getD_some]

theorem succeeds_joinList (ht : w.store.node t = .list .statements ks) (h : Chained w.store ks xs)
    (hnodup : ks.Nodup) :
    Succeeds (joinList t) w fun _ w' =>
      Alters (fun x => x = t ∨ x ∈ ks) w.store w'.store ∧ w'.store.node t = .list .statements xs := by
  cases ks with
  | nil => exact absurd rfl h.ne_nil
  | cons i ks =>
    obtain ⟨held, f, hlast⟩ := h.last_stop
    have hitems : Returns (Pass.items t) w (i :: ks) w := by
      refine Returns.ofBind (rfl : Returns (Pass.node t) w _ _) ?_
      rw [ht]
      rfl
    have hnotBlock : t ∉ i :: ks := fun hmem => by
      obtain ⟨b, hb⟩ := h.isBlock t hmem
      rw [ht] at hb
      cases hb
    refine Succeeds.bind ⟨_, _, hitems, Succeeds.bind ⟨_, _, hlast.exitNode, ?_⟩⟩
    refine (succeeds_joinFrom h hnodup).next fun _ w1 ⟨ha, f, hlast'⟩ => ?_
    have ht1 : w1.store.node t = .list .statements (i :: ks) := by
      rw [ha.node (by rw [ht]; nofun) hnotBlock, ht]
    refine Succeeds.bind ⟨_, _, hlast'.items, Succeeds.bind (succeeds_node ?_)⟩
    rw [ht1]
    refine succeeds_modifyStore ⟨?_, node_setNode_self (inside_of_node (by rw [ht1]; nofun))⟩
    exact (ha.mono fun _ _ hx => .inr hx).trans (alters_setNode (.inl rfl))

/-- Lists of statements with the chains that they hold. -/
def Chains (s : Store) (rows : Rows) : Prop :=
  ∀ t ks, (t, ks) ∈ rows → s.node t = .list .statements ks ∧ ∃ xs, Chained s ks xs

theorem succeeds_joinAll (h : Chains w.store rows) (hlists : rows.lists.Nodup) (hblocks : rows.blocks.Nodup) :
    Succeeds (rows.lists.forM joinList) w fun _ w' =>
      Alters (fun x => x ∈ rows.lists ∨ x ∈ rows.blocks) w.store w'.store ∧
        ∀ t ks xs, (t, ks) ∈ rows → Chained w.store ks xs → w'.store.node t = .list .statements xs := by
  induction rows generalizing w with
  | nil => exact .pure ⟨.refl _ _, nofun⟩
  | cons row rows ih =>
    obtain ⟨t, ks⟩ := row
    obtain ⟨ht, xs, hc⟩ := h t ks List.mem_cons_self
    obtain ⟨hfresh, hlists'⟩ := List.nodup_cons.mp hlists
    obtain ⟨hks, hblocks', hapart⟩ := List.nodup_append.mp hblocks
    refine (succeeds_joinList ht hc hks).next fun _ w1 ⟨ha, ht1⟩ => ?_
    have hnotExit : ∀ x, x = t ∨ x ∈ ks → (w.store.node x).isExit = false := by
      rintro x (rfl | hx)
      · rw [ht]; rfl
      · obtain ⟨b, hb⟩ := hc.isBlock x hx
        rw [hb]; rfl
    -- The other lists share no block with this one.
    have hrest : ∀ {t' ks' ys}, (t', ks') ∈ rows → Chained w.store ks' ys → Chained w1.store ks' ys := by
      intro t' ks' ys hmem hc'
      refine hc'.carry fun x hx _ _ hexit hb => hb.alters ha ?_ hnotExit hexit
      rintro (rfl | hx')
      · obtain ⟨b, hb⟩ := hc'.isBlock x hx
        rw [ht] at hb
        cases hb
      · exact hapart x hx' x (List.mem_flatMap.mpr ⟨_, hmem, hx⟩) rfl
    have hlist : ∀ t' ks', (t', ks') ∈ rows → w1.store.node t' = .list .statements ks' := by
      intro t' ks' hmem
      have ht' := (h t' ks' (List.mem_cons_of_mem _ hmem)).1
      rw [ha.node (by rw [ht']; nofun), ht']
      rintro (rfl | hx)
      · exact hfresh (List.mem_map.mpr ⟨_, hmem, rfl⟩)
      · obtain ⟨b, hb⟩ := hc.isBlock t' hx
        rw [ht'] at hb
        cases hb
    have hchains : Chains w1.store rows := fun t' ks' hmem =>
      ⟨hlist t' ks' hmem, (h t' ks' (List.mem_cons_of_mem _ hmem)).2.imp fun ys hc' => hrest hmem hc'⟩
    refine (ih hchains hlists' hblocks').mono fun _ w2 ⟨ha', hjoined⟩ => ⟨?_, fun t' ks' ys hmem hc' => ?_⟩
    · refine (ha.mono fun x _ hx => ?_).trans (ha'.mono fun x _ hx => ?_)
      · rcases hx with rfl | hx
        · exact .inl List.mem_cons_self
        · exact .inr (List.mem_append_left _ hx)
      · rcases hx with hx | hx
        · exact .inl (List.mem_cons_of_mem _ hx)
        · exact .inr (List.mem_append_right _ hx)
    · rcases List.mem_cons.mp hmem with he | hmem
      · cases he
        rw [ha'.node (by rw [ht1]; nofun), ht1, hc.det hc']
        rintro (hx | hx)
        · exact hfresh hx
        · obtain ⟨⟨t'', ks''⟩, hmem, hx⟩ := List.mem_flatMap.mp hx
          obtain ⟨-, ys, hc''⟩ := hchains t'' ks'' hmem
          obtain ⟨b, hb⟩ := hc''.isBlock _ hx
          rw [ht1] at hb
          cases hb
      · exact hjoined t' ks' ys hmem (hrest hmem hc')

end LuaLift.Proofs
