import LuaLift.Proofs.BranchTrees

/-! # Structuring branches

On the blocks of a compiled program, structuring completes and leaves a chain of blocks with the
statements of the program. A loop goes through the `if` statements of a list of blocks, one after the
other; each of them is structured with the branches first. -/
namespace LuaLift.Proofs
open Tree Flow Program

variable {block : Nat → NodeId} {last a b e fuel k n p r next : Nat} {w : Work Unit} {c i x y : NodeId}
  {q yes no rest : Program}
  {closed : Bool} {held : List NodeId} {exit : Node}

/-! ## Changes of blocks -/

theorem succeeds_newExit {n : Node} (hblock : BlockOf w.store (block k) held exit) :
    Succeeds (do
      let e ← Pass.add n
      Pass.modifyBlock (block k) ({ · with exit := e })) w fun _ w' =>
        Reshapes block k (k + 1) w.store w'.store ∧ BlockOf w'.store (block k) held n := by
  obtain ⟨b, hb, rfl, -⟩ := hblock
  have hsize : (block k).index < w.store.cells.size := inside_of_node (by rw [hb]; nofun)
  have hgrows := grows_push w.store { node := n }
  have hb' := hgrows.node_eq hb nofun
  have hne : (⟨w.store.cells.size⟩ : NodeId) ≠ block k := fun he => by simp [← he] at hsize
  refine Succeeds.bind (succeeds_addCell (succeeds_modifyBlock hb' ⟨?_, ?_⟩))
  · exact hgrows.reshapes.trans (reshapes_setNode hb' rfl)
  · refine ⟨_, node_setNode_self (by simp; omega), rfl, ?_⟩
    rw [node_setNode_of_ne hne]
    simp [Store.node, cell_push_self]

theorem succeeds_setFlow (hblock : BlockOf w.store (block k) held exit) :
    Succeeds (setFlow (block k) x) w fun _ w' =>
      Reshapes block k (k + 1) w.store w'.store ∧ BlockOf w'.store (block k) held (.jump .flow x false) :=
  succeeds_newExit hblock

theorem succeeds_setStop (hb : InOrder w.store block last) (hblock : BlockOf w.store (block k) held exit)
    (hexit : LeadsTo exit x) : Succeeds (setStop (block k)) w fun _ w' =>
      Reshapes block k (k + 1) w.store w'.store ∧ BlockOf w'.store (block k) held (.stop x) := by
  have hblock' := hblock
  obtain ⟨b, hnode, rfl, rfl⟩ := hblock
  have hne : b.exit ≠ .absent := by
    intro he
    rw [he, hb.missing] at hexit
    cases hexit
  refine Succeeds.bind (succeeds_block hnode ?_)
  rw [if_neg (by simpa using hne)]
  refine Succeeds.bind (succeeds_node ?_)
  exact Succeeds.bind ⟨_, _, hexit.targetOrStop, succeeds_newExit hblock'⟩

theorem succeeds_appendItem (hblock : BlockOf w.store (block k) held exit) (hexit : exit.isExit = true) :
    Succeeds (Pass.appendItem (block k) x) w fun _ w' =>
      Reshapes block k (k + 1) w.store w'.store ∧ BlockOf w'.store (block k) (held ++ [x]) exit := by
  refine Succeeds.bind ⟨_, _, hblock.items, (succeeds_setItems hblock hexit).mono ?_⟩
  rintro _ w' ⟨hblock', b, hb, hw⟩
  refine ⟨?_, hblock'⟩
  rw [hw]
  exact reshapes_setNode hb rfl

theorem returns_last (h : a < b) :
    Returns (Pass.atPosition (segment block a b) (-1)) w (block (b - 1)) w := by
  have hat : at? (segment block a b) (-1) = some (block (b - 1)) := by
    rw [at?, position?, if_neg (by omega), if_pos (by rw [length_segment]; omega), Option.bind_some,
      getElem?_segment,
      length_segment, if_pos (by omega)]
    congr 2
    omega
  rw [Returns, Pass.atPosition, hat]
  rfl

/-! ## Branches -/

/-- What is left of the blocks from position `a` up to `b` once their program is structured: a chain with
the statements that the first block held before and those of the program. -/
structure Remnant (block : Nat → NodeId) (a b : Nat) (q : Program) (held : List NodeId) (s s' : Store)
    (ks xs : List NodeId) (rows : Rows) : Prop where
  reshapes : Reshapes block a b s s'
  chained : Chained s' ks (held ++ xs)
  head : ks.head? = some (block a)
  represents : Represents s' q xs rows
  owns : Owns block a b s.cells.size s'.cells.size ks rows

/-- A step structures the blocks of all programs of less than `n` blocks. -/
def Handles (block : Nat → NodeId) (last n : Nat)
    (inner : List NodeId → NodeId → Edit (List NodeId)) : Prop :=
  ∀ {q : Program} {a next : Nat} {w : Work Unit}, q.width < n → q.isDone = false → q.WellFormed w.store →
    InOrder w.store block last → q.CompiledAt w.store block true [] a next → a + q.width ≤ next →
      next ≤ last →
    Succeeds (inner (segment block a (a + q.width)) (block next)) w fun ks w' =>
      ∃ xs rows, Remnant block a (a + q.width) q [] w.store w'.store ks xs rows

theorem Program.CompiledAt.setStop (h : q.CompiledAt w.store block closed [] a next)
    (hq : q.WellFormed w.store)
    (hd : q.isDone = false) (hb : InOrder w.store block last) (hnext : a + q.width ≤ next)
    (hlast : next ≤ last) :
    Succeeds (setStop (block (a + q.width - 1))) w fun _ w' =>
      Reshapes block a (a + q.width) w.store w'.store ∧ q.CompiledAt w'.store block true [] a next := by
  have hpos := q.width_pos
  obtain ⟨held, exit, -, hblock, ho⟩ := h.last hq (.inl hd)
  refine (succeeds_setStop hb hblock ho.leadsTo).mono fun _ w' ⟨hr, hblock'⟩ =>
    ⟨hr.mono (by omega) (by omega), ?_⟩
  refine carries q h (hr.kept hb (by omega) (.inl (Nat.le_refl _)) (by omega)) fun held' exit' hb' _ => ?_
  obtain ⟨rfl, rfl⟩ := hblock.det hb'
  exact ⟨_, hblock', rfl⟩

section
variable {inner : List NodeId → NodeId → Edit (List NodeId)} (hinner : Handles block last n inner)
include hinner

theorem Handles.closeBranch (hn : q.width < n) (hd : q.isDone = false) (hq : q.WellFormed w.store)
    (hb : InOrder w.store block last) (hc : q.CompiledAt w.store block closed [] a next)
    (hnext : a + q.width ≤ next)
    (hlast : next ≤ last) :
    Succeeds (closeBranch inner (segment block a (a + q.width)) (block next)) w fun t w' =>
      Reshapes block a (a + q.width) w.store w'.store ∧ ∃ rows, Holding w'.store t q rows ∧
        Owns block a (a + q.width) w.store.cells.size w'.store.cells.size [] rows := by
  have hpos := q.width_pos
  unfold Flow.closeBranch
  rw [getLast?_segment (by omega)]
  refine (hc.setStop hq hd hb hnext hlast).next fun _ w1 ⟨hr1, hc1⟩ => ?_
  have hb1 := hr1.inOrder hb (by omega)
  have hq1 := hq.carry (hr1.othersKept hb (by omega)).bare
  refine (hinner hn hd hq1 hb1 hc1 hnext hlast).next fun ks w2 ⟨xs, rows, hleft⟩ => ?_
  refine succeeds_addCell ⟨?_, _, ⟨xs, [(⟨w2.store.cells.size⟩, ks)], rows, .chain ?_ ?_, ?_, rfl⟩, ?_⟩
  · exact hr1.trans (hleft.reshapes.trans (grows_push _ _).reshapes)
  · simp [Store.node, cell_push_self]
  · exact hleft.chained.carry fun i _ held exit hexit hblock =>
      hblock.grows (grows_push _ _) (by rintro rfl; cases hexit)
  · exact hleft.represents.carry (grows_push _ _).othersKept.bare (grows_push _ _).rowsKept
  · have hsize := hr1.alters.size
    have hsize' := hleft.reshapes.alters.size
    rw [Array.size_push]
    exact (hleft.owns.list hsize').mono (Nat.le_refl _) (by omega) (Nat.le_refl _) hsize (by omega)
      (Nat.le_refl _)

end

theorem succeeds_addIf {t e d : NodeId} {rows rows' : Rows} {lo hi : Nat} (hb : InOrder w.store block last)
    (hblock : BlockOf w.store (block p) held exit) (hexit : exit.isExit = true)
    (ht : Holding w.store t (opening yes no).2 rows) (he : Holding w.store e no rows')
    (hc : Conjunction w.store (c :: (opening yes no).1) d)
    (hown : Owns block (p + 1) r lo hi [] (rows ++ rows'))
    (hp : p ≤ last) (hr : r ≤ last + 1) :
    Succeeds (do Pass.appendItem (block p) (← Pass.add (.ifElse d t [] e))) w fun _ w' =>
      Reshapes block p (p + 1) w.store w'.store ∧ ∃ i, BlockOf w'.store (block p) (held ++ [i]) exit ∧
        Represents w'.store (.branch c yes no .done) [i] (rows ++ rows') := by
  have hgrows := grows_push w.store { node := .ifElse d t [] e }
  have hpush : Reshapes block p (p + 1) w.store ⟨w.store.cells.push { node := .ifElse d t [] e }⟩ :=
    hgrows.reshapes
  have hb' := hpush.inOrder hb (by omega)
  have hblock' : BlockOf (Work.mk ⟨w.store.cells.push { node := .ifElse d t [] e }⟩ w.own).store
    (block p) held exit :=
    hblock.grows hgrows (by rintro rfl; cases hexit)
  refine (succeeds_appendItem hblock' hexit).mono fun _ w' ⟨hr', hblock''⟩ =>
    ⟨hpush.trans hr', _, hblock'', ?_⟩
  have hreshapes := hpush.trans hr'
  have hothers := hreshapes.othersKept hb (by omega)
  obtain ⟨hkept, hkept'⟩ := rowsKept_append.mp (hown.kept hreshapes hb (.inr (Nat.le_refl _)) hr (by omega))
  refine (ht.carry hothers.bare hkept).represents (he.carry hothers.bare hkept') ?_
    (hc.carry fun i l r hi => hothers _ _ hi nofun nofun)
  exact hr'.othersKept hb' (by omega) _ _ (by simp [Store.node, cell_push_self]) nofun nofun

/-- The blocks from position `p` up to `r` were those of an `if`, and the first of them now holds
the statement. -/
structure Folds (block : Nat → NodeId) (p r : Nat) (c : NodeId) (yes no : Program)
    (held : List NodeId) (exit : Node)
    (s s' : Store) (i : NodeId) (rows : Rows) : Prop where
  reshapes : Reshapes block p r s s'
  start : BlockOf s' (block p) (held ++ [i]) exit
  represents : Represents s' (.branch c yes no .done) [i] rows
  owns : Owns block (p + 1) r s.cells.size s'.cells.size [] rows

/-- An `if` is structured; its block still leads somewhere. -/
def Resolves (block : Nat → NodeId) (p r : Nat) (c : NodeId) (yes no : Program) (held : List NodeId)
    (s s' : Store) :
    Prop :=
  ∃ exit f i rows, LeadsTo exit f ∧ Folds block p r c yes no held exit s s' i rows

section
variable {s s' s'' : Store} {rows : Rows} {exit' : Node}

theorem Folds.grows (h : Folds block p r c yes no held exit s' s'' i rows) (hg : Grows s s') (hr : p < r) :
    Folds block p r c yes no held exit s s'' i rows :=
  ⟨hg.reshapes.trans h.reshapes, h.start, h.represents,
    h.owns.mono (Nat.le_refl _) hr (Nat.le_refl _) hg.size h.reshapes.alters.size (Nat.le_refl _)⟩

theorem Folds.newExit (h : Folds block p r c yes no held exit s s' i rows) (hb : InOrder s block last)
    (hr : p < r) (hlast : r ≤ last + 1) (hreshapes : Reshapes block p (p + 1) s' s'')
    (hstart : BlockOf s'' (block p) (held ++ [i]) exit') :
    Folds block p r c yes no held exit' s s'' i rows := by
  have hb' := h.reshapes.inOrder hb hlast
  refine ⟨h.reshapes.trans (hreshapes.mono (Nat.le_refl _) hr), hstart, ?_, ?_⟩
  · exact h.represents.carry (hreshapes.othersKept hb' (by omega)).bare
      (h.owns.kept hreshapes hb' (.inr (Nat.le_refl _)) hlast (by omega))
  · exact h.owns.mono (Nat.le_refl _) hr (Nat.le_refl _)
      (Nat.le_refl _) h.reshapes.alters.size hreshapes.alters.size

end

theorem Program.ForkedAt.kept {s s' : Store} (h : ForkedAt s block c yes no closed held p next)
    (hkept : Kept s s' block p (p + (branch c yes no done).width)) :
    ForkedAt s' block c yes no closed held p next :=
  compiledAt_branch_last.mp ((compiledAt_branch_last.mpr h).kept hkept)

section
variable {inner : List NodeId → NodeId → Edit (List NodeId)} (hinner : Handles block last n inner)
  {d : NodeId}
  (h : ForkedAt w.store block c yes no closed held p next) (hb : InOrder w.store block last)
  (hq : (branch c yes no done).WellFormed w.store) (hn : (branch c yes no done).width ≤ n)
  (hr : p + (branch c yes no done).width = r) (hnext : r ≤ next) (hlast : next ≤ last)
  (hc : Conjunction w.store (c :: (opening yes no).1) d)
include hinner h hb hq hn hr hnext hlast hc

theorem Handles.bothBranches (hno : no.isDone = false) :
    Succeeds (do
      let t ← Flow.closeBranch inner (segment block (p + 1) (p + 1 + yes.width)) (block next)
      let e ← Flow.closeBranch inner (segment block (p + 1 + yes.width) r) (block next)
      Pass.appendItem (block p) (← Pass.add (.ifElse d t [] e))) w fun _ w' =>
        Resolves block p r c yes no held w.store w'.store := by
  have hopening : opening yes no = ([], yes) := by simp [opening, hno]
  have hr' : p + 1 + yes.width + no.width = r := by
    rw [← hr, width_branch, extent_done, extent_eq hno]
    omega
  obtain ⟨-, -, hyes, hqy, hqn, -⟩ := hq
  obtain ⟨slot, hstart⟩ := h.start
  refine (hinner.closeBranch (by omega) hyes hqy hb h.first (by omega) hlast).next ?_
  rintro t w1 ⟨hr1, rows, ht, hown⟩
  have hb1 := hr1.inOrder hb (by omega)
  have hsecond := (h.second hno).kept (hr1.kept hb (by omega) (.inr (Nat.le_refl _)) (by omega))
  have hqn1 := hqn.carry (hr1.othersKept hb (by omega)).bare
  have hclose := hinner.closeBranch (by omega) hno hqn1 hb1 hsecond (by omega) hlast
  rw [hr'] at hclose
  refine hclose.next ?_
  rintro e w2 ⟨hr2, rows', he, hown'⟩
  have hb2 := hr2.inOrder hb1 (by omega)
  have hothers2 := hr2.othersKept hb1 (by omega)
  have ht2 := ht.carry hothers2.bare (hown.kept hr2 hb1 (.inl (Nat.le_refl _)) (by omega) (by omega))
  have hothers : OthersKept w.store w2.store := fun i m hi hm hm' =>
    hothers2 _ _ (hr1.othersKept hb (by omega) _ _ hi hm hm') hm hm'
  have hreshapes : Reshapes block (p + 1) r w.store w2.store :=
    (hr1.mono (Nat.le_refl _) (by omega)).trans (hr2.mono (by omega) (Nat.le_refl _))
  have hstart2 := hreshapes.kept hb (by omega) (.inl (Nat.le_refl _)) (by omega) p _ _ (Nat.le_refl _)
    (Nat.lt_succ_self _) rfl hstart
  have hown2 := hown.append hown' (by omega) (by omega) hr1.alters.size hr2.alters.size
  refine (succeeds_addIf hb2 hstart2 rfl (hopening ▸ ht2) he (hc.carry
    fun i l r hi => hothers _ _ hi (by simp) (by simp))
    hown2 (by omega) (by omega)).mono ?_
  rintro _ w3 ⟨hr3, i, hblock, hrep⟩
  refine ⟨_, _, i, _, .test,
    (hreshapes.mono (by omega) (Nat.le_refl _)).trans (hr3.mono (Nat.le_refl _) (by omega)), hblock,
    hrep, ?_⟩
  exact hown2.mono (Nat.le_refl _) (by omega) (Nat.le_refl _) (Nat.le_refl _)
    (Nat.le_trans hr1.alters.size hr2.alters.size) hr3.alters.size

theorem Handles.oneBranch (hno : no.isDone = true) :
    Succeeds (do
      let t ← Flow.closeBranch inner (segment block (p + 1 + (opening yes no).1.length) r) (block next)
      let e ← Pass.addList .statements
      Pass.appendItem (block p) (← Pass.add (.ifElse d t [] e))) w fun _ w' =>
        Resolves block p r c yes no held w.store w'.store := by
  obtain ⟨-, -, hcore⟩ := h.opening
  obtain ⟨hqc, hdc⟩ := hq.2.2.2.1.opening hq.2.2.1 no
  have hopening := width_opening yes no
  have hwidth : (branch c yes no done).width = 1 + yes.width := by
    rw [width_branch, extent_done, isDone_iff.mp hno, extent_done, Nat.add_zero]
  have hr' : p + 1 + (opening yes no).1.length + (opening yes no).2.width = r := by omega
  obtain ⟨slot, hstart⟩ := h.start
  have hclose := hinner.closeBranch (by omega) hdc hqc hb hcore (by omega) hlast
  rw [hr'] at hclose
  refine hclose.next ?_
  rintro t w1 ⟨hr1, rows, ht, hown⟩
  have hb1 := hr1.inOrder hb (by omega)
  have hothers1 := hr1.othersKept hb (by omega)
  have hstart1 := hr1.kept hb (by omega) (.inl (Nat.le_refl _)) (by omega) p _ _ (Nat.zero_le _)
    (by omega) rfl hstart
  have hgrows := grows_push w1.store { node := .list .statements [] }
  have hpush : Reshapes block (p + 1 + (opening yes no).1.length) r w1.store
      ⟨w1.store.cells.push { node := .list .statements [] }⟩ := hgrows.reshapes
  have hb2 := hpush.inOrder hb1 (by omega)
  have ht2 := ht.carry hgrows.othersKept.bare hgrows.rowsKept
  have he : Holding ⟨w1.store.cells.push { node := .list .statements [] }⟩ ⟨w1.store.cells.size⟩ no [] := by
    rw [isDone_iff.mp hno]
    exact ⟨[], [], [], .empty (by simp [Store.node, cell_push_self]), .done, rfl⟩
  have hown2 : Owns block (p + 1) r w.store.cells.size w1.store.cells.size [] (rows ++ []) := by
    rw [List.append_nil]
    exact hown.mono (by omega) (by omega) (Nat.le_refl _) (Nat.le_refl _) hr1.alters.size (Nat.le_refl _)
  have hc2 := (hc.carry fun i l r hi => hothers1 _ _ hi (by simp) (by simp)).carry fun i l r hi =>
    hgrows.node_eq hi (by simp)
  refine (succeeds_addIf (w := ⟨⟨w1.store.cells.push { node := .list .statements [] }⟩, w1.own⟩) hb2
    (hstart1.grows hgrows (by simp)) rfl ht2 he hc2 hown2 (by omega) (by omega)).mono ?_
  rintro _ w3 ⟨hr3, i, hblock, hrep⟩
  refine ⟨_, _, i, _, .test,
    ((hr1.trans hpush).mono (by omega) (Nat.le_refl _)).trans (hr3.mono (Nat.le_refl _) (by omega)),
    hblock, hrep, ?_⟩
  have hsize := hr3.alters.size
  have hsize' := hgrows.size
  exact hown2.mono (Nat.le_refl _) (by omega) (Nat.le_refl _) (Nat.le_refl _) hr1.alters.size
    (Nat.le_trans hsize' hsize)

end

theorem Program.Onward.leavesTo (h : Onward block false k next exit) :
    leavesTo exit (block next) (block next) = true := by
  obtain ⟨closes, rfl⟩ := h
  simp [Flow.leavesTo]

section
variable {inner : List NodeId → NodeId → Edit (List NodeId)} (hinner : Handles block last n inner)
include hinner

theorem Handles.resolveBranch (h : ForkedAt w.store block c yes no closed held p next)
    (hb : InOrder w.store block last)
    (hq : (branch c yes no done).WellFormed w.store) (hn : (branch c yes no done).width ≤ n)
    (hr : p + (branch c yes no done).width = r) (hnext : r ≤ next) (hlast : next ≤ last) :
    Succeeds (resolveBranch inner (block p) (segment block (p + 1) r) (block next) (block next)) w fun _ w' =>
      Resolves block p r c yes no held w.store w'.store := by
  have hpos := yes.width_pos
  have hpos' := (branch c yes no done).width_pos
  refine (h.branchCondition hb hq hr hnext hlast).next ?_
  rintro ⟨d, body, otherwise⟩ w1 ⟨hg, hc, hbody, hother⟩
  dsimp only at hc hbody hother ⊢
  subst hbody hother
  have hreshapes : Reshapes block p r w.store w1.store := hg.reshapes
  have hb1 := hreshapes.inOrder hb (by omega)
  have hq1 := hq.carry hg.othersKept.bare
  have h1 : ForkedAt w1.store block c yes no closed held p next := h.kept fun k held exit _ _ hexit hblock =>
    hblock.grows hg (by rintro rfl; cases hexit)
  have hfinish : ∀ {w' : Work Unit}, Resolves block p r c yes no held w1.store w'.store →
      Resolves block p r c yes no held w.store w'.store := fun ⟨exit, f, i, rows, hexit, hfold⟩ =>
    ⟨exit, f, i, rows, hexit, hfold.grows hg (by omega)⟩
  cases hno : no.isDone with
  | true =>
    have hopening := width_opening yes no
    have hwidth : (branch c yes no done).width = 1 + yes.width := by
      rw [width_branch, extent_done, isDone_iff.mp hno, extent_done, Nat.add_zero]
    have hposc := (opening yes no).2.width_pos
    have hrun := (hinner.oneBranch h1 hb1 hq1 hn hr hnext hlast hc hno).mono fun _ w' h => hfinish h
    obtain ⟨held', exit, -, hblock, ho⟩ := (compiledAt_branch_last.mpr h1).last hq1 (.inl rfl)
    rw [hr] at hblock ho
    rw [if_neg (by simp)]
    refine Succeeds.bind ⟨_, _, returns_last (by omega), Succeeds.bind ⟨_, _, hblock.exitNode, ?_⟩⟩
    cases closed with
    | true =>
      obtain rfl : exit = _ := ho
      exact hrun
    | false =>
      have hleaves := Onward.leavesTo ho
      obtain ⟨closes, rfl⟩ := ho
      exact Succeeds.bind (succeeds_require hleaves hrun)
  | false =>
    have hpos'' := no.width_pos
    have hopening : opening yes no = ([], yes) := by simp [opening, hno]
    have hr' : p + 1 + yes.width + no.width = r := by
      rw [← hr, width_branch, extent_done, extent_eq hno]
      omega
    have hrun := (hinner.bothBranches h1 hb1 hq1 hn hr hnext hlast hc hno).mono fun _ w' h => hfinish h
    have hne : block (p + 1 + yes.width) ≠ block next := fun he => by
      have := (hb.inj (by omega) hlast).mp he
      omega
    obtain ⟨held', exit, -, hblock, ho⟩ := h1.first.last hq1.2.2.2.1 (.inl hq1.2.2.1)
    obtain ⟨held'', exit', -, hblock', ho'⟩ := (compiledAt_branch_last.mpr h1).last hq1 (.inl rfl)
    rw [hr] at hblock' ho'
    rw [hno, Bool.and_false] at ho
    have hleaves := Onward.leavesTo ho
    obtain ⟨closes, rfl⟩ := ho
    rw [if_neg (by omega)] at hblock hleaves
    rw [if_pos (by simpa [hno] using hne), hopening]
    simp only [Bool.false_eq_true, if_false, List.length_nil, Nat.add_zero]
    refine Succeeds.bind ⟨_, _, hb1.positionOf (by omega) (by omega) (by omega), ?_⟩
    beta_reduce
    rw [show p + 1 + yes.width - (p + 1) = yes.width by omega, take_segment (by omega), drop_segment]
    refine Succeeds.bind ⟨_, _, returns_last (by omega), Succeeds.bind ⟨_, _, hblock.exitNode, ?_⟩⟩
    refine Succeeds.bind (succeeds_require rfl (Succeeds.bind (succeeds_require hleaves ?_)))
    refine Succeeds.bind ⟨_, _, returns_last (by omega), Succeeds.bind ⟨_, _, hblock'.exitNode, ?_⟩⟩
    cases closed with
    | true =>
      obtain rfl : exit' = _ := ho'
      exact hrun
    | false =>
      have hleaves' := Onward.leavesTo ho'
      obtain ⟨closes', rfl⟩ := ho'
      split
      · exact Succeeds.bind (succeeds_require hleaves' hrun)
      · rename_i he
        cases he
        exact Succeeds.bind (succeeds_require (by simp) hrun)
      · rename_i he
        cases he
      · rename_i hkind _
        exact (hkind _ _ _ rfl).elim

end

/-! ## The loop -/

/-- The last statement of a program is an `if`. -/
def Program.endsInBranch : Program → Bool
  | done => false
  | step _ rest => rest.endsInBranch
  | branch _ _ _ rest => rest.isDone || rest.endsInBranch

theorem keepBlocks_branch (hp : a ≤ p) (hpr : p + 1 < r) (hr : r ≤ e) (regions : List (Nat × Nat)) :
    keepBlocks (segment block a e) (p - a) ((p - a, r - a - 1) :: regions) =
      block p :: keepBlocks (segment block a e) (r - a) regions := by
  have hupTo : (p - a == r - a - 1) = false := by
    rw [beq_eq_false_iff_ne]
    omega
  have hbetween : between (segment block a e) (p - a) (p - a + 1) = segment block (a + (p - a))
      (a + (p - a + 1)) :=
    between_segment (by omega)
  rw [keepBlocks, hupTo, show r - a - 1 + 1 = r - a by omega]
  simp only [Bool.false_eq_true, if_false, hbetween]
  rw [show a + (p - a + 1) = p + 1 by omega, show a + (p - a) = p by omega, segment_cons (Nat.lt_succ_self _),
    segment_self, List.singleton_append]

theorem keepBlocks_rest (hp : a ≤ p) : keepBlocks (segment block a e) (p - a) [] = segment block p e := by
  rw [keepBlocks, drop_segment, Nat.add_sub_cancel' hp]

theorem returns_branchesFrom_end {inner : List NodeId → NodeId → Edit (List NodeId)}
    {outer : NodeId}
    (hfuel : 0 < fuel) (h : e ≤ a + k + 1) :
    Returns (branchesFrom inner (segment block a e) outer fuel k) w [] w := by
  cases fuel with
  | zero => cases hfuel
  | succ fuel =>
    rw [branchesFrom, if_neg (by rw [length_segment]; omega)]
    rfl

section
variable {inner : List NodeId → NodeId → Edit (List NodeId)} (hinner : Handles block last n inner)
include hinner

/-- An `if` is structured, and the loop goes on behind it. -/
theorem Handles.region {outer : NodeId} {Q : List (Nat × Nat) → Work Unit → Prop}
    (h : ForkedAt w.store block c yes no closed held p next) (hb : InOrder w.store block last)
    (hq : (branch c yes no done).WellFormed w.store) (hn : (branch c yes no done).width ≤ n) (ha : a ≤ p)
    (hr : p + (branch c yes no done).width = r) (hlast : next ≤ last)
    (hplace : closed = false ∧ next = r ∧ r < e ∨ closed = true ∧ r = e ∧ e ≤ next ∧ outer = block next)
    (hrest : ∀ w' exit i rows, (if closed then ∃ x, exit = .stop x else exit = .jump .flow (block r) false) →
      Folds block p r c yes no held exit w.store w'.store i rows →
      Succeeds (branchesFrom inner (segment block a e) outer fuel (r - a)) w' fun regions =>
        Q ((p - a, r - a - 1) :: regions)) :
    Succeeds (branchesFrom inner (segment block a e) outer (fuel + 1) (p - a)) w Q := by
  have hpos := yes.width_pos
  have hwidth : p + 1 < r := by
    rw [← hr, width_branch]
    omega
  have hnext : r ≤ next := by omega
  obtain ⟨x, slot, hstart⟩ : ∃ x slot,
      BlockOf w.store (block p) held (.test c (block (p + 1)) x slot) := ⟨_, h.start⟩
  obtain ⟨held', exit, -, hblock, ho⟩ := (compiledAt_branch_last.mpr h).last hq (.inl rfl)
  rw [hr] at hblock ho
  have hat : Returns (Pass.atPosition (segment block a e) ((p - a : Nat) : Int)) w (block (a + (p - a))) w :=
    returns_atSegment (by omega)
  rw [show a + (p - a) = p by omega] at hat
  have hplace' : closed = false ∧ next = r ∧ r < e ∨ r = e ∧ e ≤ next ∧ outer = block next :=
    hplace.imp_right And.right
  rw [branchesFrom, if_pos (by rw [length_segment]; omega)]
  refine Succeeds.bind ⟨_, _, hat, Succeeds.bind ⟨_, _, hstart.exitNode, ?_⟩⟩
  refine Succeeds.bind ⟨_, _, h.regionAt? hb hq hlast ha hr hplace', ?_⟩
  refine Succeeds.bind ⟨_, _, returns_last (by omega), Succeeds.bind ⟨_, _, hblock.exitNode, ?_⟩⟩
  refine (hinner.resolveBranch h hb hq hn hr hnext hlast).next
    fun _ w1 ⟨exit1, f, i, rows, hexit1, hfold⟩ => ?_
  have hb1 := hfold.reshapes.inOrder hb (by omega)
  cases closed with
  | true =>
    obtain rfl : exit = _ := ho
    refine (succeeds_setStop hb1 hfold.start hexit1).next fun _ w2 ⟨hr2, hstart2⟩ => ?_
    refine (hrest w2 _ i rows ⟨_, rfl⟩ (hfold.newExit hb (by omega) (by omega) hr2 hstart2)).next
      fun regions w3 hQ => ?_
    exact .pure hQ
  | false =>
    obtain ⟨closes, rfl⟩ := ho
    obtain rfl : next = r := by
      rcases hplace with ⟨-, h, -⟩ | ⟨h, -⟩
      · exact h
      · cases h
    refine (succeeds_setFlow hfold.start).next fun _ w2 ⟨hr2, hstart2⟩ => ?_
    refine (hrest w2 _ i rows rfl (hfold.newExit hb (by omega) (by omega) hr2 hstart2)).next
      fun regions w3 hQ => ?_
    exact .pure hQ

theorem Handles.loop (hq : q.WellFormed w.store) (hb : InOrder w.store block last)
    (hc : q.CompiledAt w.store block true held p next) (hn : q.width ≤ n) (hfuel : q.width ≤ fuel)
    (ha : a ≤ p)
    (he : p + q.width = e) (hnext : e ≤ next) (hlast : e ≤ last + 1)
    (hends : q.endsInBranch = true → next ≤ last) :
    Succeeds (branchesFrom inner (segment block a e) (block next) fuel (p - a)) w fun regions w' =>
      ∃ xs rows, Remnant block p e q held w.store w'.store
        (keepBlocks (segment block a e) (p - a) regions) xs rows := by
  induction q generalizing w held p fuel with
  | done =>
    obtain ⟨exit, hblock, ho⟩ := hc
    obtain rfl : exit = _ := ho
    rw [width] at he hfuel
    refine ⟨_, _, returns_branchesFrom_end hfuel (by omega), [], [], ?_⟩
    rw [keepBlocks_rest ha, segment_cons (by omega), ← he, segment_self]
    exact ⟨.refl, .last (by rwa [List.append_nil]), rfl, .done, Owns.nil.cons (Nat.lt_succ_self _)⟩
  | step i rest ih =>
    obtain ⟨-, -, hqr⟩ := hq
    refine (ih hqr hb hc hn hfuel ha he hends).mono ?_
    rintro regions w' ⟨xs, rows, hleft⟩
    refine ⟨i :: xs, rows, ?_⟩
    have hchained := hleft.chained
    rw [List.append_assoc] at hchained
    exact ⟨hleft.reshapes, hchained, hleft.head, .step hleft.represents, hleft.owns⟩
  | branch c yes no rest _ _ ih =>
    have hpos := yes.width_pos
    obtain ⟨fuel, rfl⟩ : ∃ m, fuel = m + 1 := ⟨fuel - 1, by have := (branch c yes no rest).width_pos; omega⟩
    cases hrest : rest.isDone with
    | true =>
      obtain rfl := isDone_iff.mp hrest
      have hwidth : p + 1 < e := by
        rw [← he, width_branch]
        omega
      refine hinner.region (compiledAt_branch_last.mp hc) hb hq hn ha he (hends rfl)
        (.inr ⟨rfl, rfl, hnext, rfl⟩) ?_
      rintro w' _ i rows ⟨x, rfl⟩ hfold
      refine ⟨_, _, returns_branchesFrom_end (by rw [width_branch] at hfuel; omega) (by omega), [i], rows, ?_⟩
      rw [keepBlocks_branch ha hwidth (Nat.le_refl _), keepBlocks_rest (by omega), segment_self]
      exact ⟨hfold.reshapes, .last hfold.start, rfl, hfold.represents, hfold.owns.cons (by omega)⟩
    | false =>
      rw [compiledAt_branch hrest] at hc
      obtain ⟨hfork, hcr⟩ := hc
      obtain ⟨hc, hbare, hyes, hqy, hqn, hqr⟩ := hq
      have hposr := rest.width_pos
      obtain ⟨r, hr⟩ : ∃ r, p + 1 + yes.width + no.extent = r := ⟨_, rfl⟩
      rw [width_branch, extent_eq hrest] at he hfuel hn
      rw [hr] at hfork hcr
      have hends' : rest.endsInBranch = true → next ≤ last := fun h =>
        hends (by rw [endsInBranch, h, Bool.or_true])
      refine hinner.region hfork hb ⟨hc, hbare, hyes, hqy, hqn,
        trivial⟩ (by rw [width_branch, extent_done]; omega) ha
        (by rw [width_branch, extent_done]; omega) (by omega) (.inl ⟨rfl, rfl, by omega⟩) ?_
      rintro w1 _ i rows rfl hfold
      have hb1 := hfold.reshapes.inOrder hb (by omega)
      have hq1 := hqr.carry (hfold.reshapes.othersKept hb (by omega)).bare
      have hc1 := hcr.kept (hfold.reshapes.kept hb (by omega) (.inr (Nat.le_refl _)) (by omega))
      refine (ih hq1 hb1 hc1 (by omega) (by omega) (by omega) (by omega) hends').mono ?_
      rintro regions w2 ⟨xs, rows', hleft⟩
      refine ⟨i :: xs, rows ++ rows', ?_⟩
      have hothers := hleft.reshapes.othersKept hb1 hlast
      have hkept := hfold.owns.kept hleft.reshapes hb1 (.inl (Nat.le_refl _)) (by omega) hlast
      have hstart := hleft.reshapes.kept hb1 hlast (.inl (Nat.le_refl _)) (by omega) p _ _
        (Nat.zero_le _) (by omega) rfl hfold.start
      rw [keepBlocks_branch ha (by omega) (by omega)]
      have hchained := hleft.chained
      have howns :=
        (hfold.owns.cons (by omega)).append hleft.owns (by omega) (by omega) hfold.reshapes.alters.size
        hleft.reshapes.alters.size
      obtain ⟨ks, hks⟩ : ∃ ks, keepBlocks (segment block a e) (r - a) regions = block r :: ks := by
        obtain ⟨ks, hks⟩ := List.head?_eq_some_iff.mp hleft.head
        exact ⟨ks, hks⟩
      rw [hks] at hchained howns ⊢
      refine ⟨?_, ?_, rfl, ?_, howns⟩
      · exact (hfold.reshapes.mono (Nat.le_refl _) (by omega)).trans
          (hleft.reshapes.mono (by omega) (Nat.le_refl _))
      · have := Chained.cons hstart hchained
        rwa [List.append_assoc] at this
      · exact (hfold.represents.carry hothers.bare hkept).append hleft.represents

end

/-- Structuring handles all programs of less blocks than its depth. -/
theorem handles_branches (block : Nat → NodeId) (last depth : Nat) :
    Handles block last depth (branches depth) := by
  induction depth with
  | zero => exact fun h => nomatch h
  | succ depth ih =>
    intro q a next w hn hd hq hb hc hnext hlast
    have hloop := ih.loop hq hb hc (by omega) (Nat.le_succ _) (Nat.le_refl _) rfl hnext (by omega)
      fun _ => hlast
    rw [Nat.sub_self] at hloop
    rw [branches, length_segment, Nat.add_sub_cancel_left]
    exact hloop.next fun regions w' hleft => .pure hleft

end LuaLift.Proofs
