import LuaLift.Proofs.BranchConditions

/-! # Trees of branches

While branches are structured, lists of statements hold chains of blocks, and the statements of a
chain are those of its blocks one after the other. `Represents` says that such statements are those of
a program. A program owns the blocks of its chains and the lists it is in, so that its parts do not
disturb each other. -/
namespace LuaLift.Proofs
open Tree Flow

/-- Lists of statements with the blocks that they hold. -/
abbrev Rows := List (NodeId × List NodeId)

/-- The blocks of lists. -/
def Rows.blocks (rows : Rows) : List NodeId := rows.flatMap Prod.snd

def Rows.lists (rows : Rows) : List NodeId := rows.map Prod.fst

@[simp] theorem Rows.blocks_append (rows rows' : Rows) : (rows ++ rows').blocks = rows.blocks ++
  rows'.blocks :=
  List.flatMap_append

@[simp] theorem Rows.lists_append (rows rows' : Rows) : (rows ++ rows').lists = rows.lists ++ rows'.lists :=
  List.map_append

@[simp] theorem Rows.blocks_singleton (t : NodeId) (ks : List NodeId) : Rows.blocks [(t, ks)] = ks :=
  List.append_nil ks

@[simp] theorem Rows.lists_singleton (t : NodeId) (ks : List NodeId) : Rows.lists [(t, ks)] = [t] := rfl

/-- Blocks that flow into each other, and their statements. -/
inductive Chained (s : Store) : List NodeId → List NodeId → Prop
  | last {i held t} : BlockOf s i held (.stop t) → Chained s [i] held
  | cons {i j ks held xs closes} : BlockOf s i held (.jump .flow j closes) → Chained s (j :: ks) xs →
      Chained s (i :: j :: ks) (held ++ xs)

/-- A list of statements is empty or holds a chain of blocks. -/
inductive Listed (s : Store) : NodeId → List NodeId → Rows → Prop
  | empty {t} : s.node t = .list .statements [] → Listed s t [] []
  | chain {t ks xs} : s.node t = .list .statements ks → Chained s ks xs → Listed s t xs [(t, ks)]

/-- Statements are those of a program. The conditions of an opening are joined. -/
inductive Represents (s : Store) : Program → List NodeId → Rows → Prop
  | done : Represents s .done [] []
  | step {i rest xs rows} : Represents s rest xs rows → Represents s (.step i rest) (i :: xs) rows
  | branch {i c d t e yes no rest ts es xs rt rt' re re' rows} : s.node i = .ifElse d t [] e →
      Conjunction s (c :: (Program.opening yes no).1) d → Listed s t ts rt →
      Represents s (Program.opening yes no).2 ts rt' → Listed s e es re → Represents s no es re' →
      Represents s rest xs rows →
      Represents s (.branch c yes no rest) (i :: xs) ((rt ++ rt') ++ (re ++ re') ++ rows)

section
variable {s s' : Store} {q : Program} {xs ks : List NodeId} {t : NodeId} {rows : Rows}

/-! ## Changes of the store -/

theorem Chained.carry (h : Chained s ks xs)
    (hblocks : ∀ i ∈ ks, ∀ held exit, exit.isExit = true → BlockOf s i held exit → BlockOf s' i held exit) :
    Chained s' ks xs := by
  induction h with
  | last hb => exact .last (hblocks _ List.mem_cons_self _ _ rfl hb)
  | cons hb _ ih =>
    exact .cons (hblocks _ List.mem_cons_self _ _ rfl hb)
      (ih fun i hi => hblocks i (List.mem_cons_of_mem _ hi))

/-- All nodes but blocks and lists of statements are as they were. -/
def BareKept (s s' : Store) : Prop :=
  ∀ i, s.node i ≠ .absent → holdsStatements (s.node i) = false → s'.node i = s.node i

theorem BareKept.trans {s'' : Store} (h : BareKept s s') (h' : BareKept s' s'') :
    BareKept s s'' := fun i hi hh => by
  have he := h i hi hh
  rw [h' i (he ▸ hi) (he ▸ hh), he]

theorem Bare.carry {i : NodeId} (h : Bare s i) (hs : BareKept s s') : Bare s' i := by
  induction h with
  | intro hi hh _ ih =>
    have he := hs _ hi hh
    exact .intro (he ▸ hi) (he ▸ hh) fun c hc => ih c (he ▸ hc)

theorem Program.WellFormed.carry (h : q.WellFormed s) (hs : BareKept s s') : q.WellFormed s' := by
  induction q with
  | done => trivial
  | step i rest ih =>
    obtain ⟨hi, hif, hrest⟩ := h
    refine ⟨hi.carry hs, ?_, ih hrest⟩
    cases hi with
    | intro hn hh _ => rwa [hs i hn hh]
  | branch c yes no rest ihy ihn ihr =>
    obtain ⟨⟨op, l, r, hc, hop⟩, hbare, hyes, hy, hn, hr⟩ := h
    refine ⟨⟨op, l, r, ?_, hop⟩, hbare.carry hs, hyes, ihy hy, ihn hn, ihr hr⟩
    rw [hs c (by rw [hc]; nofun) (by rw [hc]; rfl), hc]

/-- Lists of statements with their blocks are as they were. -/
structure RowsKept (s s' : Store) (rows : Rows) : Prop where
  lists : ∀ t ∈ rows.lists, ∀ ks, s.node t = .list .statements ks → s'.node t = .list .statements ks
  blocks : ∀ i ∈ rows.blocks, ∀ held exit, exit.isExit = true → BlockOf s i held exit → BlockOf s' i held exit

@[simp] theorem rowsKept_append {rows' : Rows} :
    RowsKept s s' (rows ++ rows') ↔ RowsKept s s' rows ∧ RowsKept s s' rows' := by
  constructor
  · intro h
    refine ⟨⟨fun t ht => h.lists t ?_, fun i hi => h.blocks i ?_⟩,
      ⟨fun t ht => h.lists t ?_, fun i hi => h.blocks i ?_⟩⟩
    all_goals simp [*]
  · rintro ⟨h, h'⟩
    refine ⟨fun t ht => ?_, fun i hi => ?_⟩
    · rw [Rows.lists_append, List.mem_append] at ht
      exact ht.elim (h.lists t) (h'.lists t)
    · rw [Rows.blocks_append, List.mem_append] at hi
      exact hi.elim (h.blocks i) (h'.blocks i)

theorem Listed.carry (h : Listed s t xs rows) (hs : BareKept s s') (hrows : RowsKept s s' rows) :
    Listed s' t xs rows := by
  cases h with
  | empty ht => exact .empty (by rw [hs t (by rw [ht]; nofun) (by rw [ht]; rfl), ht])
  | chain ht hc =>
    exact .chain (hrows.lists t List.mem_cons_self _ ht) (hc.carry (by simpa using hrows.blocks))

theorem Represents.carry (h : Represents s q xs rows) (hs : BareKept s s') (hrows : RowsKept s s' rows) :
    Represents s' q xs rows := by
  have hkept : ∀ {i n}, s.node i = n → n ≠ .absent → holdsStatements n = false → s'.node i = n := by
    rintro i _ rfl hn hh
    exact hs i hn hh
  induction h with
  | done => exact .done
  | step _ ih => exact .step (ih hrows)
  | branch hi hc ht _ he _ _ iht ihe ih =>
    simp only [rowsKept_append] at hrows
    obtain ⟨⟨⟨hrt, hrt'⟩, hre, hre'⟩, hrest⟩ := hrows
    exact .branch (hkept hi nofun rfl) (hc.carry fun i l r hi => hkept hi nofun rfl)
      (ht.carry hs hrt) (iht hrt')
      (he.carry hs hre) (ihe hre') (ih hrest)

/-- All nodes but blocks are as they were. -/
def OthersKept (s s' : Store) : Prop :=
  ∀ i n, s.node i = n → n ≠ .absent → (∀ b, n ≠ .block b) → s'.node i = n

theorem Grows.othersKept (h : Grows s s') : OthersKept s s' := fun _ _ hi hn _ => h.node_eq hi hn

theorem OthersKept.bare (h : OthersKept s s') : BareKept s s' := fun i hi hh =>
  h i _ rfl hi fun b hb => by rw [hb] at hh; cases hh

theorem Grows.rowsKept (h : Grows s s') : RowsKept s s' rows :=
  ⟨fun _ _ _ ht => h.node_eq ht nofun,
    fun _ _ _ _ hexit hblock => hblock.grows h (by rintro rfl; cases hexit)⟩

theorem OthersKept.rowsKept (h : OthersKept s s')
    (hblocks : ∀ i ∈ rows.blocks, ∀ held exit, exit.isExit = true → BlockOf s i held exit →
      BlockOf s' i held exit) :
    RowsKept s s' rows :=
  ⟨fun _ _ _ ht => h _ _ ht nofun nofun, hblocks⟩

/-- A list holds the statements of a program. -/
def Holding (s : Store) (t : NodeId) (q : Program) (rows : Rows) : Prop :=
  ∃ xs rt rt', Listed s t xs rt ∧ Represents s q xs rt' ∧ rows = rt ++ rt'

theorem Holding.carry (h : Holding s t q rows) (hs : BareKept s s') (hrows : RowsKept s s' rows) :
    Holding s' t q rows := by
  obtain ⟨xs, rt, rt', hl, hr, rfl⟩ := h
  obtain ⟨hrt, hrt'⟩ := rowsKept_append.mp hrows
  exact ⟨xs, rt, rt', hl.carry hs hrt, hr.carry hs hrt', rfl⟩

theorem Holding.represents {i c d e : NodeId} {yes no : Program} {rows' : Rows}
    (h : Holding s t (Program.opening yes no).2 rows) (h' : Holding s e no rows')
    (hi : s.node i = .ifElse d t [] e)
    (hc : Conjunction s (c :: (Program.opening yes no).1) d) :
    Represents s (.branch c yes no .done) [i] (rows ++ rows') := by
  obtain ⟨xs, rt, rt', hl, hr, rfl⟩ := h
  obtain ⟨xs', re, re', hl', hr', rfl⟩ := h'
  have := Represents.branch hi hc hl hr hl' hr' .done
  rwa [List.append_nil] at this

theorem Represents.append {i c : NodeId} {yes no rest : Program} {rows' : Rows}
    (h : Represents s (.branch c yes no .done) [i] rows) (hrest : Represents s rest xs rows') :
    Represents s (.branch c yes no rest) (i :: xs) (rows ++ rows') := by
  cases h with
  | branch hi hc ht ht' he he' hdone =>
    cases hdone
    rw [List.append_nil]
    exact .branch hi hc ht ht' he he' hrest

end

/-! ## Blocks in a range of positions -/

section
variable {block : Nat → NodeId} {last a b a' b' k : Nat} {s s' s'' : Store} {i : NodeId}
  {held xs ks : List NodeId}
  {exit : Node} {q : Program} {rows : Rows}

/-- Only the blocks from position `a` up to `b` have changed, but not their indices. -/
structure Reshapes (block : Nat → NodeId) (a b : Nat) (s s' : Store) : Prop where
  alters : Alters (· ∈ segment block a b) s s'
  index : ∀ i x, s.node i = .block x → ∃ y, s'.node i = .block y ∧ y.index = x.index

theorem Reshapes.refl : Reshapes block a b s s := ⟨.refl _ _, fun _ x h => ⟨x, h, rfl⟩⟩

theorem Reshapes.trans (h : Reshapes block a b s s') (h' : Reshapes block a b s' s'') :
    Reshapes block a b s s'' := by
  refine ⟨h.alters.trans h'.alters, fun i x hi => ?_⟩
  obtain ⟨y, hy, hxy⟩ := h.index i x hi
  obtain ⟨z, hz, hyz⟩ := h'.index i y hy
  exact ⟨z, hz, hyz.trans hxy⟩

theorem Reshapes.mono (h : Reshapes block a b s s') (ha : a' ≤ a) (hb : b ≤ b') :
    Reshapes block a' b' s s' := by
  refine ⟨h.alters.mono fun i _ hi => ?_, h.index⟩
  obtain ⟨k, hk, hk', rfl⟩ := mem_segment.mp hi
  exact mem_segment.mpr ⟨k, by omega, by omega, rfl⟩

theorem Grows.reshapes (h : Grows s s') : Reshapes block a b s s' :=
  ⟨h.alters, fun _ x hi => ⟨x, h.node_eq hi nofun, rfl⟩⟩

section
variable (h : Reshapes block a b s s') (hb : InOrder s block last) (hlast : b ≤ last + 1)
include h hb hlast

theorem Reshapes.othersKept : OthersKept s s' := by
  rintro i n rfl hn hblock
  refine h.alters.node hn fun hi => ?_
  obtain ⟨k, -, hk, rfl⟩ := mem_segment.mp hi
  obtain ⟨x, hx⟩ := hb.isBlock k (by omega)
  exact hblock x hx

theorem Reshapes.blockOf (hi : i ∉ segment block a b) (hexit : exit.isExit = true)
    (hblock : BlockOf s i held exit) :
    BlockOf s' i held exit := by
  obtain ⟨x, hx, hheld, he⟩ := hblock
  refine ⟨x, ?_, hheld,
    h.othersKept hb hlast _ _ he (by rintro rfl; cases hexit) (by rintro x rfl; cases hexit)⟩
  rw [h.alters.node (by rw [hx]; nofun) hi, hx]

theorem Reshapes.kept (ha : b' ≤ a ∨ b ≤ a') (hb' : b' ≤ last + 1) : Program.Kept s s' block a' b' := by
  intro k held exit hk hk' hexit hblock
  refine h.blockOf hb hlast (fun hmem => ?_) hexit hblock
  obtain ⟨j, hj, hj', he⟩ := mem_segment.mp hmem
  have := (hb.inj (by omega) (by omega)).mp he
  omega

theorem Reshapes.inOrder : InOrder s' block last := by
  have hblock : ∀ k ≤ last, ∃ x y, s.node (block k) = .block x ∧ s'.node (block k) = .block y ∧
      y.index = x.index := by
    intro k hk
    obtain ⟨x, hx⟩ := hb.isBlock k hk
    obtain ⟨y, hy, hxy⟩ := h.index _ x hx
    exact ⟨x, y, hx, hy, hxy⟩
  refine ⟨?_, fun k hk => ?_, fun i j hij hj => ?_⟩
  · obtain ⟨x, hx⟩ := hb.isBlock 0 (Nat.zero_le _)
    have hsize : (block 0).index < s.cells.size := inside_of_node (by rw [hx]; nofun)
    rw [Store.node, h.alters.cell .absent (Nat.lt_of_le_of_lt (Nat.zero_le _) hsize)]
    · exact hb.missing
    · intro hmem
      obtain ⟨k, -, hk, he⟩ := mem_segment.mp hmem
      exact hb.ne_absent (by omega) he
  · obtain ⟨x, y, -, hy, -⟩ := hblock k hk
    exact ⟨y, hy⟩
  · obtain ⟨x, y, hx, hy, hxy⟩ := hblock i (by omega)
    obtain ⟨x', y', hx', hy', hxy'⟩ := hblock j hj
    have := hb.index_lt i j hij hj
    simp only [blockIndex, hx, hx'] at this
    simp only [blockIndex, hy, hy']
    omega

end

theorem reshapes_setNode {x y : Block} (hx : s.node (block k) = .block x) (hy : y.index = x.index) :
    Reshapes block k (k + 1) s (s.setNode (block k) (.block y)) := by
  have hsize : (block k).index < s.cells.size := inside_of_node (by rw [hx]; nofun)
  refine ⟨alters_setNode (mem_segment.mpr ⟨k, Nat.le_refl _, Nat.lt_succ_self _, rfl⟩), fun i z hz => ?_⟩
  by_cases hi : i = block k
  · subst hi
    rw [hx] at hz; cases hz
    exact ⟨y, node_setNode_self hsize, hy⟩
  · exact ⟨z, by rw [node_setNode_of_ne hi, hz], rfl⟩

theorem succeeds_setItems {w : Work Unit} (hblock : BlockOf w.store i held exit)
    (hexit : exit.isExit = true) :
    Succeeds (Pass.setItems i xs) w fun _ w' => BlockOf w'.store i xs exit ∧
      ∃ b, w.store.node i = .block b ∧ w'.store = w.store.setNode i (.block { b with contents := xs }) := by
  obtain ⟨b, hb, rfl, rfl⟩ := hblock
  have hsize : i.index < w.store.cells.size := inside_of_node (by rw [hb]; nofun)
  have hne : b.exit ≠ i := by
    rintro rfl
    rw [hb] at hexit
    cases hexit
  refine Succeeds.bind (succeeds_node ?_)
  rw [hb]
  refine succeeds_modifyStore ⟨⟨_, node_setNode_self hsize, rfl, ?_⟩, b, rfl, rfl⟩
  rw [node_setNode_of_ne hne]

/-! ## What a program owns -/

/-- The blocks of a chain and of lists are some of those from position `a` up to `b`, and the lists have
numbers from `lo` up to `hi`. None of them is there twice. -/
structure Owns (block : Nat → NodeId) (a b lo hi : Nat) (ks : List NodeId) (rows : Rows) : Prop where
  blocks : ∀ x, (ks ++ rows.blocks).count x ≤ (segment block a b).count x
  lists : ∀ x, rows.lists.count x ≤ (segment NodeId.mk lo hi).count x

section
variable {m lo mid hi : Nat} {ks' : List NodeId} {rows' : Rows} {t : NodeId}

theorem count_segment (ha : a ≤ m) (hb : m ≤ b) (x : NodeId) :
    (segment block a b).count x = (segment block a m).count x + (segment block m b).count x := by
  rw [← segment_append ha hb, List.count_append]

theorem Owns.nil : Owns block a b lo hi [] [] := ⟨fun _ => Nat.zero_le _, fun _ => Nat.zero_le _⟩

theorem Owns.append (h : Owns block a m lo mid ks rows) (h' : Owns block m b mid hi ks' rows')
    (ha : a ≤ m) (hb : m ≤ b)
    (hlo : lo ≤ mid) (hhi : mid ≤ hi) : Owns block a b lo hi (ks ++ ks') (rows ++ rows') := by
  refine ⟨fun x => ?_, fun x => ?_⟩
  · have hx := h.blocks x
    have hx' := h'.blocks x
    rw [count_segment ha hb]
    simp only [List.count_append, Rows.blocks_append] at hx hx' ⊢
    omega
  · have hx := h.lists x
    have hx' := h'.lists x
    rw [count_segment hlo hhi]
    simp only [List.count_append, Rows.lists_append] at hx hx' ⊢
    omega

theorem Owns.mono (h : Owns block a b lo hi ks rows) (ha : a' ≤ a) (hab : a ≤ b) (hb : b ≤ b') {lo' hi' : Nat}
    (hlo : lo' ≤ lo) (hlohi : lo ≤ hi) (hhi : hi ≤ hi') : Owns block a' b' lo' hi' ks rows := by
  refine ⟨fun x => ?_, fun x => ?_⟩
  · have hx := h.blocks x
    rw [count_segment ha (Nat.le_trans hab hb), count_segment hab hb]
    omega
  · have hx := h.lists x
    rw [count_segment hlo (Nat.le_trans hlohi hhi), count_segment hlohi hhi]
    omega

theorem Owns.cons (h : Owns block (a + 1) b lo hi ks rows) (hab : a < b) :
    Owns block a b lo hi (block a :: ks) rows := by
  refine ⟨fun x => ?_, h.lists⟩
  have hx := h.blocks x
  rw [segment_cons hab]
  simp only [List.cons_append, List.count_cons] at hx ⊢
  omega

theorem Owns.list (h : Owns block a b lo hi ks rows) (hlo : lo ≤ hi) :
    Owns block a b lo (hi + 1) [] ([(⟨hi⟩, ks)] ++ rows) := by
  refine ⟨fun x => ?_, fun x => ?_⟩
  · exact h.blocks x
  · have hx := h.lists x
    rw [count_segment hlo (Nat.le_succ _), segment_cons (Nat.lt_succ_self _), segment_self]
    simp only [Rows.lists_append, Rows.lists_singleton, List.count_append] at hx ⊢
    omega

theorem Owns.mem (h : Owns block a b lo hi ks rows) {x : NodeId} (hx : x ∈ rows.blocks) :
    x ∈ segment block a b := by
  have hcount := h.blocks x
  have hpos : 0 < rows.blocks.count x := List.count_pos_iff.mpr hx
  rw [List.count_append] at hcount
  exact List.count_pos_iff.mp (by omega)

theorem Owns.kept (hown : Owns block a b lo hi ks rows) (hr : Reshapes block a' b' s s')
    (hb : InOrder s block last)
    (hapart : b ≤ a' ∨ b' ≤ a) (hlast : b ≤ last + 1) (hlast' : b' ≤ last + 1) : RowsKept s s' rows := by
  refine (hr.othersKept hb hlast').rowsKept fun i hi held exit hexit hblock => ?_
  refine hr.blockOf hb hlast' (fun hmem => ?_) hexit hblock
  obtain ⟨j, hj, hj', rfl⟩ := mem_segment.mp (hown.mem hi)
  obtain ⟨k, hk, hk', he⟩ := mem_segment.mp hmem
  have := (hb.inj (by omega) (by omega)).mp he
  omega

end

end

end LuaLift.Proofs
