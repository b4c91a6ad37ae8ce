import LuaLift.Proofs.Occurrences
import LuaLift.Proofs.Succeeding
import LuaLift.Proofs.WritingAlike

/-! # Nodes that stand in several places

Steps that move expressions leave trees in which one node stands in several places. `unshare`
gives every place a node of its own. The text of a program is that of its unshared copy, as long
as no node stands twice among the parts of one node: there the writer leaves the second place
out. -/
namespace LuaLift.Proofs
open Tree Pass Lua

/-- Copies a node with all that it leads to, once for each place. -/
def unshare : Nat → NodeId → Edit NodeId
  | 0, _ => throw .tooDeep
  | depth + 1, i => do
    let c ← cell i
    let fs ← c.node.fields.mapM (unshare depth)
    let xs ← c.node.items.mapM (unshare depth)
    addCell { c with node := c.node.rebuild fs xs }

/-- The array items and records of a constructor. -/
def tableRecords (s : Store) : Node → List NodeId
  | .table a r => (s.node a).items ++ (s.node r).items
  | _ => []

/-- No node stands twice among the parts of a node, nor among the records of a constructor. -/
def PartsDiffer (s : Store) (i : NodeId) : Prop :=
  (s.node i).children.Nodup ∧ (tableRecords s (s.node i)).Nodup

instance (s : Store) (i : NodeId) : Decidable (PartsDiffer s i) := instDecidableAnd

variable {s t t' t'' : Store} {i j : NodeId} {k : Nat}

/-! ## Links and parts -/

variable {is xs ys : List NodeId} {m n : Node} {c : NodeId} {r : PartRule}

theorem children_perm (h : isStructured n = true) : n.children.Perm (n.fields ++ n.items) := by
  cases n with
  | element t key => exact .swap t key []
  | call f as => exact .swap f as []
  | repeatLoop c ss => exact .swap c ss []
  | ifElse c t xs e =>
    refine .cons c (.cons t ?_)
    exact List.perm_append_comm
  | list kind xs => exact .refl _
  | absent | block | jump | test | iterate | count | stop => cases h
  | _ => exact .refl _

theorem isStructured_rebuild (n : Node) (fs xs : List NodeId) :
    isStructured (n.rebuild fs xs) = isStructured n := by
  unfold Node.rebuild
  split <;> rfl

/-! ## What a larger store keeps -/

theorem occurrences_grows (h : Grows t t') (hin : ∀ d, ∀ x ∈ occurrences t d j, x.index < t.cells.size)
    (d : Nat) : occurrences t' d j = occurrences t d j := by
  induction d generalizing j with
  | zero => rfl
  | succ d ih =>
    have hnode : t'.node j = t.node j := by
      rw [Store.node, Store.node, h.cell j (hin 1 j (mem_occurrences_self t 0 j))]
    unfold occurrences
    rw [hnode]
    congr 1
    refine List.flatMap_congr fun c hc => ih fun e x hx => ?_
    exact hin (e + 1) x (mem_occurrences_child hc hx)

/-- A tree of at most `k` levels and a copy of it. -/
def Copied (s t : Store) : Nat → NodeId → NodeId → Prop
  | 0, _, _ => False
  | k + 1, i, j => j.index < t.cells.size ∧ ∃ fs xs, List.Forall₂ (Copied s t k) (s.node i).fields fs ∧
      List.Forall₂ (Copied s t k) (s.node i).items xs ∧ t.node j = (s.node i).rebuild fs xs

theorem Copied.grows (h : Copied s t k i j) (hg : Grows t t') : Copied s t' k i j := by
  induction k generalizing i j with
  | zero => exact h
  | succ k ih =>
    obtain ⟨hin, fs, xs, hf, hx, hn⟩ := h
    refine ⟨Nat.lt_of_lt_of_le hin hg.size, fs, xs, hf.imp fun _ _ => ih, hx.imp fun _ _ => ih, ?_⟩
    rw [Store.node, hg.cell j hin]
    exact hn

/-! ## Copies -/

/-- Trees and their copies, in nodes that were added to `t`, each in one place. -/
structure Fresh (s t t' : Store) (k : Nat) (is js : List NodeId) : Prop where
  grows : Grows t t'
  copied : List.Forall₂ (Copied s t' k) is js
  new : ∀ d, ∀ x ∈ js.flatMap (occurrences t' d), t.cells.size ≤ x.index ∧ x.index < t'.cells.size
  nodup : ∀ d, (js.flatMap (occurrences t' d)).Nodup

theorem Fresh.nil (s t : Store) (k : Nat) : Fresh s t t k [] [] :=
  ⟨.refl t, .nil, by simp, by simp⟩

theorem Fresh.append {js is' js' : List NodeId} (h : Fresh s t t' k is js) (h' : Fresh s t' t'' k is' js') :
    Fresh s t t'' k (is ++ is') (js ++ js') := by
  have hkept : ∀ d, js.flatMap (occurrences t'' d) = js.flatMap (occurrences t' d) := by
    intro d
    refine List.flatMap_congr fun j hj => occurrences_grows h'.grows (fun e x hx => ?_) d
    exact (h.new e x (List.mem_flatMap.mpr ⟨j, hj, hx⟩)).2
  have hsize := h.grows.size
  have hsize' := h'.grows.size
  refine ⟨h.grows.trans h'.grows, ?_, ?_, ?_⟩
  · exact List.rel_append (h.copied.imp fun _ _ hc => hc.grows h'.grows) h'.copied
  · intro d x hx
    rw [List.flatMap_append, List.mem_append, hkept] at hx
    cases hx with
    | inl hx =>
      have := h.new d x hx
      omega
    | inr hx =>
      have := h'.new d x hx
      omega
  · intro d
    rw [List.flatMap_append, hkept]
    refine List.nodup_append.mpr ⟨h.nodup d, h'.nodup d, ?_⟩
    rintro x hx y hy rfl
    have := h.new d x hx
    have := h'.new d x hy
    omega

theorem Fresh.node {fs : List NodeId} {c : Cell} (hs : isStructured (s.node i) = true)
    (hf : Fresh s t t' k (s.node i).fields fs) (hx : Fresh s t' t'' k (s.node i).items xs)
    (hc : c.node = (s.node i).rebuild fs xs) :
    Fresh s t ⟨t''.cells.push c⟩ (k + 1) [i] [⟨t''.cells.size⟩] := by
  have hlinks := hf.append hx
  have hpush := grows_push t'' c
  have hnode : (Store.mk (t''.cells.push c)).node ⟨t''.cells.size⟩ = (s.node i).rebuild fs xs := by
    rw [Store.node, cell_push_self, hc]
  have hperm : ((s.node i).rebuild fs xs).children.Perm (fs ++ xs) := by
    obtain ⟨hfields, hitems⟩ := links_rebuild (s.node i) hf.copied.length_eq.symm hx.copied.length_eq.symm
    have hstructured := (isStructured_rebuild (s.node i) fs xs).trans hs
    simpa [hfields, hitems] using children_perm hstructured
  have hbelow : ∀ d, (((s.node i).rebuild fs xs).children.flatMap
      (occurrences ⟨t''.cells.push c⟩ d)).Perm ((fs ++ xs).flatMap (occurrences t'' d)) := by
    intro d
    refine (hperm.flatMap_right _).trans (.of_eq ?_)
    refine List.flatMap_congr fun j hj => occurrences_grows hpush (fun e x hx => ?_) d
    exact (hlinks.new e x (List.mem_flatMap.mpr ⟨j, hj, hx⟩)).2
  have hsize := hlinks.grows.size
  refine ⟨hlinks.grows.trans hpush, ?_, ?_, ?_⟩
  · refine .cons ⟨by simp, fs, xs, ?_, ?_, hnode⟩ .nil
    · exact hf.copied.imp fun _ _ h => h.grows (hx.grows.trans hpush)
    · exact hx.copied.imp fun _ _ h => h.grows hpush
  · intro d x hmem
    cases d with
    | zero => simp [occurrences] at hmem
    | succ d =>
      rw [List.flatMap_singleton, occurrences, hnode, List.mem_cons, (hbelow d).mem_iff] at hmem
      simp only [Array.size_push]
      cases hmem with
      | inl hx =>
        subst hx
        exact ⟨hsize, Nat.lt_succ_self _⟩
      | inr hmem =>
        have := hlinks.new d x hmem
        omega
  · intro d
    cases d with
    | zero => simp [occurrences]
    | succ d =>
      rw [List.flatMap_singleton, occurrences, hnode, List.nodup_cons, (hbelow d).mem_iff,
        (hbelow d).nodup_iff]
      refine ⟨fun hmem => ?_, hlinks.nodup d⟩
      exact absurd (hlinks.new d _ hmem).2 (Nat.lt_irrefl _)

/-- What the writer relies on at every node of a program. -/
structure Proper (s : Store) (i : NodeId) : Prop where
  present : i ≠ .absent
  structured : isStructured (s.node i) = true
  lists : ∀ a b c, s.node i = .function a b c →
    isListNode (s.node a) = true ∧ isListNode (s.node b) = true

/-- A tree of at most `k` levels, of proper nodes. -/
def ProperTree (s : Store) : Nat → NodeId → Prop
  | 0, _ => False
  | k + 1, i => Proper s i ∧ ∀ c ∈ (s.node i).children, ProperTree s k c

theorem node_ne_absent (h : isStructured n = true) : n ≠ .absent := by
  rintro rfl
  cases h

theorem succeeds_mapM_unshare
    (ih : ∀ {c : NodeId} {t : Store}, ProperTree s k c → Grows s t → Succeeds (unshare k c) ⟨t, ()⟩
      fun j w => Fresh s t w.store k [c] [j])
    (hall : ∀ c ∈ is, ProperTree s k c) (hg : Grows s t) :
    Succeeds (is.mapM (unshare k)) ⟨t, ()⟩ fun js w => Fresh s t w.store k is js := by
  induction is generalizing t with
  | nil => exact .pure (Fresh.nil s t k)
  | cons i is ihs =>
    rw [List.mapM_cons]
    refine (ih (hall i List.mem_cons_self) hg).next fun j w hj => ?_
    have hrest := ihs (fun c hc => hall c (List.mem_cons_of_mem i hc)) (hg.trans hj.grows)
    exact hrest.next fun js w' hjs => .pure (hj.append hjs)

/-- A tree that is not too deep has an unshared copy. -/
theorem succeeds_unshare (h : ProperTree s k i) (hg : Grows s t) :
    Succeeds (unshare k i) ⟨t, ()⟩ fun j w => Fresh s t w.store k [i] [j] := by
  induction k generalizing i t with
  | zero => exact h.elim
  | succ k ih =>
    have hstructured := h.1.structured
    have hlinks : ∀ c, c ∈ (s.node i).fields ++ (s.node i).items → ProperTree s k c := by
      intro c hc
      exact h.2 c ((children_perm hstructured).mem_iff.mpr hc)
    have hcell : t.cell i = s.cell i := hg.cell i (inside_of_node (node_ne_absent hstructured))
    have hread : Succeeds (cell i) (⟨t, ()⟩ : Work Unit) fun c w => c = s.cell i ∧ w = ⟨t, ()⟩ :=
      succeeds_cell ⟨hcell, rfl⟩
    refine hread.next ?_
    rintro _ _ ⟨rfl, rfl⟩
    have hfields := succeeds_mapM_unshare ih (fun c hc => hlinks c (List.mem_append_left _ hc)) hg
    refine hfields.next fun fs w hf => ?_
    have hitems := succeeds_mapM_unshare ih (fun c hc => hlinks c (List.mem_append_right _ hc))
      (hg.trans hf.grows)
    refine hitems.next fun xs w' hx => ?_
    exact succeeds_addCell (hf.node hstructured hx rfl)

/-! ## A copy is alike -/

theorem aligned_zip (hx : xs.Nodup) (hy : ys.Nodup) : Aligned (xs.zip ys) := by
  intro p hp q hq
  obtain ⟨m, hm, rfl⟩ := List.mem_iff_getElem.mp hp
  obtain ⟨n, hn, rfl⟩ := List.mem_iff_getElem.mp hq
  simp only [List.getElem_zip]
  rw [hx.getElem_inj_iff, hy.getElem_inj_iff]

theorem forall₂_imp_mem {R S : NodeId → NodeId → Prop} (h : List.Forall₂ R xs ys)
    (himp : ∀ a ∈ xs, ∀ b ∈ ys, R a b → S a b) : List.Forall₂ S xs ys := by
  induction h with
  | nil => exact .nil
  | cons hab _ ih =>
    refine .cons (himp _ List.mem_cons_self _ List.mem_cons_self hab) (ih fun a ha b hb => ?_)
    exact himp a (List.mem_cons_of_mem _ ha) b (List.mem_cons_of_mem _ hb)

theorem items_sublist_children (n : Node) : n.items.Sublist n.children := by
  cases n with
  | list kind xs => exact .refl _
  | ifElse c t xs e =>
    have hsub : xs.Sublist (xs ++ [e]) := List.sublist_append_left xs [e]
    exact (hsub.cons t).cons c
  | block b => exact List.sublist_append_left _ _
  | _ => exact List.nil_sublist _

theorem Unshared.tableRecords (h : Unshared t j) : (tableRecords t (t.node j)).Nodup := by
  cases hj : t.node j with
  | table a r =>
    have hall := h.grandchildren (congrArg Node.children hj)
    exact hall.sublist ((items_sublist_children _).append (items_sublist_children _))
  | _ => exact List.nodup_nil

theorem Unshared.calls (h : Unshared t j) : isMethodCall t (t.node j) = false := by
  cases hj : t.node j with
  | call f as =>
    have hall := h.grandchildren (congrArg Node.children hj)
    unfold isMethodCall
    dsimp only
    split
    · rename_i table key first rest hf has
      have hfirst : first ∈ (t.node as).children := by
        refine (items_sublist_children _).subset ?_
        rw [has]
        exact List.mem_cons_self
      have htable : table ∈ (t.node f).children := by simp [hf, Node.children]
      have hne := (List.nodup_append.mp hall).2.2 first hfirst table htable
      simpa using hne.symm
    · rfl
  | _ => rfl

theorem tableParts_sublist (s : Store) (a r : NodeId) :
    (tableParts s a r).Sublist (tableRecords s (.table a r)) :=
  (List.drop_sublist 1 _).append_right _

theorem twin_of_copied (hs : ProperTree s k i) (hc : Copied s t k i j)
    (hparts : ∀ x ∈ occurrences s k i, PartsDiffer s x)
    (hcalls : ∀ x ∈ occurrences s k i, isMethodCall s (s.node x) = false) (hu : Unshared t j)
    (hpresent : ∀ d, ∀ x ∈ occurrences t d j, x ≠ .absent) : Twin s t k i j := by
  induction k generalizing i j with
  | zero => exact hs.elim
  | succ k ih =>
    obtain ⟨-, fs, xs, hf, hx, hn⟩ := hc
    have hself := mem_occurrences_self s k i
    have hstructured := hs.1.structured
    have hperm := children_perm hstructured
    have hperm' : (t.node j).children.Perm (fs ++ xs) := by
      obtain ⟨hfields, hitems⟩ := links_rebuild (s.node i) hf.length_eq.symm hx.length_eq.symm
      have hsame := (isStructured_rebuild (s.node i) fs xs).trans hstructured
      rw [hn]
      simpa [hfields, hitems] using children_perm hsame
    have hbelow : ∀ a ∈ (s.node i).fields ++ (s.node i).items, ∀ b ∈ fs ++ xs,
        Copied s t k a b → Twin s t k a b := by
      intro a ha b hb hab
      have hchild := hperm.mem_iff.mpr ha
      have hchild' := hperm'.mem_iff.mpr hb
      refine ih (hs.2 a hchild) hab ?_ ?_ (hu.child hchild') ?_
      · exact fun x hx => hparts x (mem_occurrences_child hchild hx)
      · exact fun x hx => hcalls x (mem_occurrences_child hchild hx)
      · exact fun d x hx => hpresent (d + 1) x (mem_occurrences_child hchild' hx)
    refine ⟨hs.1.present, hpresent 1 j (mem_occurrences_self t 0 j), hstructured, ⟨fs, xs, ?_, ?_, hn⟩,
      aligned_zip (hparts i hself).1 hu.children, ?_, hs.1.lists, hcalls i hself, hu.calls⟩
    · exact forall₂_imp_mem hf fun a ha b hb =>
        hbelow a (List.mem_append_left _ ha) b (List.mem_append_left _ hb)
    · exact forall₂_imp_mem hx fun a ha b hb =>
        hbelow a (List.mem_append_right _ ha) b (List.mem_append_right _ hb)
    · intro a r a' r' hi hj
      have hrecords := (hparts i hself).2
      have hrecords' := hu.tableRecords
      rw [hi] at hrecords
      rw [hj] at hrecords'
      exact aligned_zip (hrecords.sublist (tableParts_sublist s a r))
        (hrecords'.sublist (tableParts_sublist t a' r'))

/-! ## Valid trees -/

/-- A test that structured nodes pass only. -/
def OnlyStructured (f : Node → Bool) : Prop := ∀ m, f m = true → isStructured m = true

@[simp] theorem onlyStructured_isExpression : OnlyStructured Node.isExpression := by
  intro m h
  cases m <;> first | rfl | cases h

@[simp] theorem onlyStructured_isStatement : OnlyStructured Node.isStatement := by
  intro m h
  cases m <;> first | rfl | cases h

@[simp] theorem onlyStructured_isVariable : OnlyStructured Node.isVariable := by
  intro m h
  cases m <;> first | rfl | cases h

@[simp] theorem onlyStructured_isList (kind : ListKind) : OnlyStructured (Node.isList kind) := by
  intro m h
  cases m <;> first | rfl | cases h

@[simp] theorem onlyStructured_isElseIfNode : OnlyStructured isElseIfNode := by
  intro m h
  cases m <;> first | rfl | cases h

@[simp] theorem onlyStructured_isRecordNode : OnlyStructured isRecordNode := by
  intro m h
  cases m <;> first | rfl | cases h

@[simp] theorem onlyStructured_isParameter :
    OnlyStructured fun n => isIdentifierNode n || n == .vararg := by
  intro m h
  cases m <;> first | rfl | simp [isIdentifierNode] at h

/-- The tests of a rule for parts let structured nodes pass only. -/
structure Structures (r : PartRule) : Prop where
  special : ∀ p ∈ r.special, OnlyStructured p.2
  general : ∀ f, r.general = some f → OnlyStructured f

theorem Structures.allows (h : Structures r) (hc : r.allows c m = true) : isStructured m = true := by
  obtain ⟨p, hp, -, hm⟩ | ⟨-, f, hf, hm⟩ := allows_cases hc
  · exact h.special p hp m hm
  · exact h.general f hf m hm

/-- Only functions and exits mention blocks in the rule for their parts. -/
theorem structures_of_partRule (hn : isStructured n = true) (hf : n.ctorIdx ≠ 1)
    (hr : partRule s false n = .ok r) : Structures r := by
  cases n with
  | absent | block | jump | test | iterate | count | stop => cases hn
  | function => exact absurd rfl hf
  | assignment kind es ds =>
    simp only [partRule] at hr
    repeat' split at hr
    all_goals first
      | cases hr
        exact ⟨by simp, by simp⟩
      | cases hr
  | binary | unary | constant | primitive =>
    obtain ⟨_, -, hr⟩ := bind_eq_ok hr
    cases hr
    exact ⟨by simp, by simp⟩
  | identifier =>
    obtain ⟨_, -, hr⟩ := bind_eq_ok hr
    obtain ⟨_, -, hr⟩ := bind_eq_ok hr
    cases hr
    exact ⟨by simp, by simp⟩
  | list kind xs =>
    cases kind with
    | records =>
      obtain ⟨_, -, hr⟩ := bind_eq_ok hr
      cases hr
      exact ⟨by simp, by simp⟩
    | _ =>
      cases hr
      exact ⟨by simp, by simp⟩
  | _ =>
    cases hr
    exact ⟨by simp, by simp⟩

theorem isListNode_of_partRule {a b : NodeId} {scope : Scope}
    (hr : partRule s false (.function a b scope) = .ok r) (hc : c = a ∨ c = b) (h : r.allows c m = true) :
    isListNode m = true := by
  have hlist : ∀ kind, m.isList kind = true → isListNode m = true := by
    intro kind hm
    cases m <;> first | rfl | cases hm
  cases hr
  obtain ⟨p, hp, -, hm⟩ | ⟨hne, -⟩ := allows_cases h
  · simp only [List.mem_cons, List.not_mem_nil, or_false] at hp
    obtain rfl | rfl := hp
    · exact hlist _ hm
    · exact hlist _ hm
  · simp only [List.mem_cons, List.not_mem_nil, or_false, forall_eq_or_imp, forall_eq] at hne
    exact (hc.elim (fun h => hne.1 h.symm) fun h => hne.2 h.symm).elim

/-- A valid tree of structured nodes is proper, and no deeper than the check goes. -/
theorem properTree_of_check {rule : Option PartRule} (hzero : s.node .absent = .absent)
    (h : checkPart s false k rule i = .ok ()) (hs : isStructured (s.node i) = true) : ProperTree s k i := by
  induction k generalizing i rule with
  | zero => cases h
  | succ k ih =>
    obtain ⟨-, hpresent, r, hr, hparts⟩ := checkPart_ok h
    have hallows : ∀ c ∈ (s.node i).children, r.allows c (s.node c) = true := by
      intro c hc
      cases k with
      | zero => cases hparts c hc
      | succ k => exact (checkPart_ok (hparts c hc)).1 r rfl
    have hlists : ∀ a b c, s.node i = .function a b c →
        isListNode (s.node a) = true ∧ isListNode (s.node b) = true := by
      intro a b c hi
      rw [hi] at hr hallows
      exact ⟨isListNode_of_partRule hr (.inl rfl) (hallows a (by simp [Node.children])),
        isListNode_of_partRule hr (.inr rfl) (hallows b (by simp [Node.children]))⟩
    have hnode : i ≠ .absent := by
      rintro rfl
      exact hpresent hzero
    refine ⟨⟨hnode, hs, hlists⟩, fun c hc => ih (hparts c hc) ?_⟩
    cases hi : s.node i with
    | function a b scope =>
      rw [hi] at hc
      have hlist : isListNode (s.node c) = true := by
        simp only [Node.children, List.mem_cons, List.not_mem_nil, or_false] at hc
        obtain rfl | rfl := hc
        · exact (hlists _ _ _ hi).1
        · exact (hlists _ _ _ hi).2
      cases hc : s.node c <;> first | rfl | simp [hc, isListNode] at hlist
    | _ =>
      refine (structures_of_partRule hs ?_ hr).allows (hallows c hc)
      rw [hi]
      exact Nat.ne_of_beq_eq_false rfl

/-! ## The text of a program -/

/-- The text of a program does not depend on which nodes are shared, as long as no node stands
twice among the parts of one node and there are no method calls. -/
theorem text_unshare {root a ss : NodeId} {c : Scope} (hzero : s.node .absent = .absent)
    (hroot : s.node root = .function a ss c) (hvalid : s.validate false root = .ok ())
    (hparts : ∀ i ∈ occurrences s s.depth root, PartsDiffer s i)
    (hcalls : ∀ i ∈ occurrences s s.depth root, isMethodCall s (s.node i) = false) :
    ∃ root' s', (unshare s.depth root).run' s = (.ok root', s') ∧ Unshared s' root' ∧
      ((text root').run' s').1 = ((text root).run' s).1 := by
  have hproper : ProperTree s s.depth root := properTree_of_check hzero hvalid (by rw [hroot]; rfl)
  obtain ⟨root', w, hrun, hfresh⟩ := succeeds_unshare hproper (.refl s)
  have hunshared : Unshared w.store root' := by
    intro d
    simpa using hfresh.nodup d
  have hinside : root.index < s.cells.size := inside_of_node (by rw [hroot]; simp)
  have hpresent : ∀ d, ∀ x ∈ occurrences w.store d root', x ≠ .absent := by
    rintro d _ hx rfl
    have hnew : s.cells.size ≤ 0 := (hfresh.new d .absent (by simpa using hx)).1
    omega
  have hcopied : Copied s w.store s.depth root root' := by simpa using hfresh.copied
  have htwin := twin_of_copied hproper hcopied hparts hcalls hunshared hpresent
  obtain ⟨fs, xs, hf, -, hn⟩ := htwin.mirror.links
  rw [hroot] at hf hn
  obtain ⟨a', ss', rfl, -, hss⟩ := forall₂_two hf
  have hdepth : s.depth ≤ w.store.depth := by
    have := hfresh.grows.size
    unfold Store.depth
    omega
  refine ⟨root', w.store, ?_, hunshared, (text_eq hroot hn hss (by omega) (by omega)).symm⟩
  simp only [Edit.run', show unshare s.depth root ⟨s, ()⟩ = .ok root' w from hrun]

/-- A store of nodes that are numbered from 1 on. -/
def numbered (ns : List Node) : Store := ⟨((Node.absent :: ns).map fun n => { node := n }).toArray⟩

theorem forall_node {P : Node → Prop} (habsent : P .absent) (h : ∀ c ∈ s.cells.toList, P c.node)
    (i : NodeId) :
    P (s.node i) := by
  unfold Store.node Store.cell
  rw [Array.getD_eq_getD_getElem?]
  cases hcell : s.cells[i.index]? with
  | none => exact habsent
  | some c => exact h c (Array.mem_def.mp (Array.mem_of_getElem? hcell))

/-- `f(x)` and `return x` with one node for `x`, which also is in the constructor of the call. -/
def sharedArgument : Store := numbered [
  .identifier { kind := .builtin, name := some "f" },
  .identifier { kind := .named, slot := 0, name := some "x" },
  .arrayRecord ⟨2⟩,
  .list .records [⟨3⟩],
  .list .records [],
  .table ⟨4⟩ ⟨5⟩,
  .list .expressions [⟨2⟩, ⟨6⟩],
  .call ⟨1⟩ ⟨7⟩,
  .list .expressions [⟨2⟩],
  .ret ⟨9⟩,
  .list .statements [⟨8⟩, ⟨10⟩],
  .list .identifiers [],
  .function ⟨12⟩ ⟨11⟩ {}]

/-- The shared variable is written in all three places. -/
theorem text_unshare_sharedArgument :
    sharedArgument.validate false ⟨13⟩ = .ok () ∧
      ((text ⟨13⟩).run' sharedArgument).1 =
        .ok ("f(x, \x7b\n\t[0] = x\n\x7d)\n\nreturn x\n", none) ∧
      ∃ root' s', (unshare sharedArgument.depth ⟨13⟩).run' sharedArgument = (.ok root', s') ∧
        Unshared s' root' ∧
        ((text root').run' s').1 = ((text ⟨13⟩).run' sharedArgument).1 := by
  have hvalid : sharedArgument.validate false ⟨13⟩ = .ok () := by decide +kernel
  refine ⟨hvalid, by decide +kernel, ?_⟩
  exact text_unshare rfl rfl hvalid (by decide +kernel) (by decide +kernel)

/-- `return x + x` with one node for both operands. -/
def sharedOperand : Store := numbered [
  .identifier { kind := .named, slot := 0, name := some "x" },
  .binary .add ⟨1⟩ ⟨1⟩,
  .list .expressions [⟨2⟩],
  .ret ⟨3⟩,
  .list .statements [⟨4⟩],
  .list .identifiers [],
  .function ⟨6⟩ ⟨5⟩ {}]

/-- The second operand is left out, unlike that of the unshared copy. -/
theorem text_sharedOperand :
    sharedOperand.validate false ⟨7⟩ = .ok () ∧
      (∀ i ∈ occurrences sharedOperand sharedOperand.depth ⟨7⟩,
        isMethodCall sharedOperand (sharedOperand.node i) = false) ∧
      ((text ⟨7⟩).run' sharedOperand).1 = .ok ("return x + \n", none) ∧
      ((unshare sharedOperand.depth ⟨7⟩ >>= text).run' sharedOperand).1 =
        .ok ("return x + x\n", none) := by
  decide +kernel

end LuaLift.Proofs
