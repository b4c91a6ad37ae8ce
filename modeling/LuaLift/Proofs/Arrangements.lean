import LuaLift.Proofs.Checking
import LuaLift.Flow.LoopEntry

/-! # Arrangements of the blocks of a function

While the exits of the blocks of a function are rearranged, exits change places, returns move to
other blocks and blocks are added. `Arranged` says what holds all the time: every place keeps
the address of its exit, and no statement has an address that its block does not have. -/
namespace LuaLift.Proofs
open Bytecode Tree Pass Lift Flow

variable {p : Prototype} {ends : List Int} {j k : Nat} {a : Int}

/-- Exit and statements of each block, and the addresses of the statements. -/
structure Arrangement where
  exit : Nat → NodeId
  contents : Nat → List NodeId
  address : NodeId → Int

/-- Block `k` of a function as it is arranged. -/
abbrev Arrangement.row (A : Arrangement) (F : Frame) (k : Nat) (x e : Int) : Block :=
  ⟨x, A.exit k, A.contents k, firstOf F.ends k, lastOf F.ends k, e⟩

/-- The address of the exit of a block. -/
def Frame.exitAddress (F : Frame) (k : Nat) : Int :=
  if k + 1 = F.ends.length then lastOf F.ends k else stopOf F.p.instructions F.ends k + 1

/-- The nodes of a function that change while its blocks are rearranged. -/
def Frame.Moves (F : Frame) (s : Store) (i : NodeId) : Prop :=
  i ∈ F.blocks ∨ (∃ k < F.ends.length, i = F.exit k) ∨ ∃ a vs, F.line a = some i ∧ s.node i = .ret vs

/-- The blocks of a function are arranged in `s` as `A` says. In `base` they are as they were lifted;
the parts of exits are looked at there. -/
structure Arranged (base : Store) (F : Frame) (A : Arrangement) (s : Store) : Prop where
  size : base.cells.size ≤ s.cells.size
  block : ∀ k i, F.blocks[k]? = some i → ∃ x e,
    s.cell i = ⟨.block (A.row F k x e), none, false⟩
  perm : ∀ k < F.ends.length, ∃ j < F.ends.length, A.exit k = F.exit j
  inj : ∀ j k, j < F.ends.length → k < F.ends.length → A.exit j = A.exit k → j = k
  exit : ∀ k < F.ends.length, ∃ n, s.cell (A.exit k) = ⟨n, some (F.exitAddress k), false⟩ ∧
    n.isExit = true ∧ ExitParts base n
  line : ∀ {a i}, F.line a = some i → s.cell i = { base.cell i with address := some (A.address i) }
  lines : ∀ k < F.ends.length, ∀ i ∈ A.contents k, ∃ a, F.line a = some i
  apart : ∀ j k, j < F.ends.length → k < F.ends.length →
    ∀ i ∈ A.contents j, i ∈ A.contents k → j = k
  nodup : ∀ k < F.ends.length, (A.contents k).Nodup
  sorted : ∀ k < F.ends.length, (A.contents k).Pairwise fun x y => A.address x ≤ A.address y
  bounds : ∀ k < F.ends.length, ∀ i ∈ A.contents k,
    firstOf F.ends k ≤ A.address i ∧ A.address i ≤ F.exitAddress k

variable {base s s' : Store} {lo : Nat} {F : Frame} {A : Arrangement} {i : NodeId}

variable {b c : Block} {closes : Bool} {a' e e' x' y y' : Int} {kind : JumpKind} {m n : Node}
  {t x vs stop start : NodeId}

theorem not_isInner_of_isExit (h : n.isExit = true) : isInner n = false := by
  cases n <;> first | rfl | cases h

section
variable (h : Bodies base lo F)
include h

theorem Bodies.line_ne_exit (ha : F.line a = some i) (hk : k < F.ends.length) : i ≠ F.exit k := by
  rintro rfl
  have := (h.lines.inside ha).1
  have := (h.exitInside k hk).2
  omega

theorem Bodies.line_ne_block (ha : F.line a = some i) : i ∉ F.blocks := by
  intro hb
  have := (h.lines.inside ha).1
  have := (h.blockInside i hb).2
  omega

theorem Bodies.exit_ne_block (hk : k < F.ends.length) : F.exit k ∉ F.blocks := by
  intro hb
  obtain ⟨j, hj⟩ := List.mem_iff_getElem?.mp hb
  obtain ⟨e, hcell⟩ := h.block j _ hj
  have := h.exit_node hk
  rw [Store.node, hcell] at this
  cases this

theorem Bodies.exit_inj (hj : j < F.ends.length) (hk : k < F.ends.length)
    (he : F.exit j = F.exit k) : j = k := by
  rcases Nat.lt_trichotomy j k with hlt | heq | hgt
  · have := h.exitOrder j k hlt hk
    rw [he] at this
    omega
  · exact heq
  · have := h.exitOrder k j hgt hj
    rw [he] at this
    omega

theorem Bodies.block_inj (hi : F.blocks[j]? = some i) (hi' : F.blocks[k]? = some i) : j = k :=
  (List.getElem?_inj (List.getElem?_eq_some_iff.mp hi).1 h.nodup).mp (hi.trans hi'.symm)

theorem Bodies.block_ne (hi : F.blocks[j]? = some i)
    (ht : F.blocks[k]? = some t) (hjk : j ≠ k) : i ≠ t := by
  rintro rfl
  exact hjk (h.block_inj hi ht)

theorem Bodies.line_ne (ha : F.line a = some x) (hi : F.blocks[k]? = some i) : x ≠ i :=
  (ne_of_mem_of_not_mem (List.mem_of_getElem? hi) (h.line_ne_block ha)).symm

end

/-! ## What leaves an arrangement as it is -/

theorem inside_of_cell {x : Option Int} (h : s.cell i = ⟨n, x, false⟩) (hn : n ≠ .absent) :
    i.index < s.cells.size :=
  inside_of_node (by rw [Store.node, h]; exact hn)

theorem Arranged.exit_inside (hA : Arranged base F A s) (hk : k < F.ends.length) :
    (A.exit k).index < s.cells.size := by
  obtain ⟨n, hcell, hexit, -⟩ := hA.exit k hk
  exact inside_of_cell hcell (by rintro rfl; cases hexit)

theorem Arranged.block_inside (hA : Arranged base F A s) (hi : F.blocks[k]? = some i) :
    i.index < s.cells.size := by
  obtain ⟨x, e, hcell⟩ := hA.block k i hi
  exact inside_of_cell hcell (by simp)

section
variable (h : Bodies base lo F) (hA : Arranged base F A s) (hk : k < F.ends.length)
include h hA hk

theorem Arranged.exit_ne_block : A.exit k ∉ F.blocks := by
  obtain ⟨j, hj, he⟩ := hA.perm k hk
  rw [he]
  exact h.exit_ne_block hj

theorem Arranged.exit_ne (hi : F.blocks[j]? = some i) : A.exit k ≠ i :=
  (ne_of_mem_of_not_mem (List.mem_of_getElem? hi) (hA.exit_ne_block h hk)).symm

theorem Arranged.exit_ne_line (ha : F.line a = some i) : i ≠ A.exit k := by
  obtain ⟨j, hj, he⟩ := hA.perm k hk
  rw [he]
  exact h.line_ne_exit ha hj

end

/-- The nodes that change while blocks are rearranged, by where the exits are now. -/
def Arrangement.Touches (A : Arrangement) (base : Store) (F : Frame) (i : NodeId) : Prop :=
  i ∈ F.blocks ∨ (∃ k < F.ends.length, i = A.exit k) ∨ ∃ a vs, F.line a = some i ∧ base.node i = .ret vs

theorem Arranged.moves (hA : Arranged base F A s) (hi : A.Touches base F i) : F.Moves base i := by
  rcases hi with hb | ⟨k, hk, rfl⟩ | hr
  · exact .inl hb
  · exact .inr (.inl (hA.perm k hk))
  · exact .inr (.inr hr)

theorem Arranged.keeps (hA : Arranged base F A s) (ha : Alters (A.Touches base F) s s') : Keeps s s' := by
  intro i hi
  refine ha.cell i (inside_of_node fun hn => by simp [hn, isInner] at hi) ?_
  rintro (hb | ⟨k, hk, rfl⟩ | ⟨a, vs, hl, hr⟩)
  · obtain ⟨k, hk⟩ := List.mem_iff_getElem?.mp hb
    obtain ⟨_, _, hcell⟩ := hA.block k i hk
    rw [Store.node, hcell] at hi
    cases hi
  · obtain ⟨_, hcell, hexit, -⟩ := hA.exit k hk
    rw [Store.node, hcell, not_isInner_of_isExit hexit] at hi
    cases hi
  · rw [Store.node, hA.line hl, show (base.cell i).node = .ret vs from hr] at hi
    cases hi

theorem Arranged.setIndex (h : Bodies base lo F) (hA : Arranged base F A s)
    (hi : F.blocks[k]? = some i) (x e : Int) :
    Arranged base F A (s.setNode i (.block (A.row F k x e))) := by
  refine { hA with size := by rw [size_setNode]; exact hA.size, block := ?_, exit := ?_, line := ?_ }
  · intro j i' hj
    by_cases hjk : i' = i
    · subst hjk
      obtain rfl := h.block_inj hj hi
      obtain ⟨x', e', hcell⟩ := hA.block j i' hj
      exact ⟨x, e, by rw [cell_setNode_self (hA.block_inside hj), hcell]⟩
    · rw [cell_setNode_of_ne hjk]
      exact hA.block j i' hj
  · intro j hj
    obtain ⟨n, hcell, hexit, hparts⟩ := hA.exit j hj
    refine ⟨n, ?_, hexit, hparts⟩
    rw [cell_setNode_of_ne (hA.exit_ne h hj hi), hcell]
  · intro a i' ha
    rw [cell_setNode_of_ne (h.line_ne ha hi), hA.line ha]

theorem Arranged.setExit (h : Bodies base lo F) (hA : Arranged base F A s) (hk : k < F.ends.length)
    (hn : n.isExit = true) (hparts : ExitParts base n) : Arranged base F A (s.setNode (A.exit k) n) := by
  obtain ⟨n', hcell', -⟩ := hA.exit k hk
  refine { hA with size := by rw [size_setNode]; exact hA.size, block := ?_, exit := ?_, line := ?_ }
  · intro j i' hj
    rw [cell_setNode_of_ne (hA.exit_ne h hk hj).symm]
    exact hA.block j i' hj
  · intro j hj
    by_cases hjk : j = k
    · subst hjk
      exact ⟨n, by rw [cell_setNode_self (hA.exit_inside hk), hcell'], hn, hparts⟩
    · obtain ⟨n'', hcell, hexit, hparts'⟩ := hA.exit j hj
      refine ⟨n'', ?_, hexit, hparts'⟩
      rw [cell_setNode_of_ne fun he => hjk (hA.inj j k hj hk he), hcell]
  · intro a i' ha
    rw [cell_setNode_of_ne (hA.exit_ne_line h hk ha), hA.line ha]

/-- The blocks, exits and statements of a function. -/
def Frame.Part (F : Frame) (i : NodeId) : Prop :=
  i ∈ F.blocks ∨ (∃ k < F.ends.length, i = F.exit k) ∨ ∃ a, F.line a = some i

/-- An arrangement depends on the nodes of its function only. -/
theorem Arranged.keep (hA : Arranged base F A s) (hsize : s.cells.size ≤ s'.cells.size)
    (hsame : ∀ j, F.Part j → s'.cell j = s.cell j) : Arranged base F A s' := by
  refine { hA with size := Nat.le_trans hA.size hsize, block := ?_, exit := ?_, line := ?_ }
  · intro k i hi
    rw [hsame i (.inl (List.mem_of_getElem? hi))]
    exact hA.block k i hi
  · intro k hk
    rw [hsame _ (.inr (.inl (hA.perm k hk)))]
    exact hA.exit k hk
  · intro a i ha
    rw [hsame i (.inr (.inr ⟨a, ha⟩)), hA.line ha]

theorem Bodies.part_inside (h : Bodies base lo F) (hi : F.Part i) : i.index < base.cells.size := by
  rcases hi with hb | ⟨k, hk, rfl⟩ | ⟨a, ha⟩
  · obtain ⟨k, hk⟩ := List.mem_iff_getElem?.mp hb
    obtain ⟨e, hcell⟩ := h.block k i hk
    exact inside_of_node (by rw [Store.node, hcell]; simp)
  · refine inside_of_node fun hn => ?_
    have := h.exit_node hk
    rw [hn] at this
    cases this
  · exact (h.lines.inside ha).2

theorem Frame.Moves.part (h : F.Moves base i) : F.Part i := by
  rcases h with hb | he | ⟨a, _, ha, -⟩
  · exact .inl hb
  · exact .inr (.inl he)
  · exact .inr (.inr ⟨a, ha⟩)

/-! ## One round -/

/-- The index of a block. -/
def blockIndex? : Node → Option Int
  | .block b => some b.index
  | _ => none

/-- A change of the arrangement in the round of block `k`: exits other than those of the places `T`
stay, and so do the indices of the other blocks. -/
structure Rearranged (base : Store) (F : Frame) (k : Nat) (T : Nat → Prop) (A A' : Arrangement)
    (s s' : Store) : Prop where
  arranged : Arranged base F A' s'
  alters : Alters (F.Moves base) s s'
  keeps : Keeps s s'
  exit : ∀ m < F.ends.length, ¬ T m →
    A'.exit m = A.exit m ∧ s'.cell (A.exit m) = s.cell (A.exit m)
  index : ∀ m i, F.blocks[m]? = some i → m ≠ k → blockIndex? (s'.node i) = blockIndex? (s.node i)

variable {T T' : Nat → Prop} {A' A'' : Arrangement} {s'' : Store}

theorem Rearranged.refl (hA : Arranged base F A s) : Rearranged base F k T A A s s :=
  ⟨hA, .refl _ _, fun _ _ => rfl, fun _ _ _ => ⟨rfl, rfl⟩, fun _ _ _ _ => rfl⟩

theorem Rearranged.trans (h : Rearranged base F k T A A' s s') (h' : Rearranged base F k T A' A'' s' s'') :
    Rearranged base F k T A A'' s s'' := by
  refine ⟨h'.arranged, h.alters.trans h'.alters, h.keeps.trans h'.keeps, fun m hm hT => ?_,
    fun m i hi hne => ?_⟩
  · obtain ⟨he, hc⟩ := h.exit m hm hT
    obtain ⟨he', hc'⟩ := h'.exit m hm hT
    rw [he] at he' hc'
    exact ⟨he', hc'.trans hc⟩
  · rw [h'.index m i hi hne, h.index m i hi hne]

theorem Rearranged.mono (h : Rearranged base F k T A A' s s') (hT : ∀ m, T m → T' m) :
    Rearranged base F k T' A A' s s' :=
  { h with exit := fun m hm hn => h.exit m hm fun ht => hn (hT m ht) }

theorem Arranged.rearrange_setIndex (h : Bodies base lo F) (hA : Arranged base F A s)
    (hi : F.blocks[k]? = some i) (x e : Int) :
    Rearranged base F k T A A s (s.setNode i (.block (A.row F k x e))) := by
  have hmem := List.mem_of_getElem? hi
  refine ⟨hA.setIndex h hi x e, alters_setNode (.inl hmem), hA.keeps (alters_setNode (.inl hmem)),
    fun m hm _ => ⟨rfl, ?_⟩, fun m j hj hne => ?_⟩
  · exact cell_setNode_of_ne (hA.exit_ne h hm hi)
  · rw [Store.node, cell_setNode_of_ne (h.block_ne hj hi hne), Store.node]

theorem Arranged.rearrange_setExit (h : Bodies base lo F) (hA : Arranged base F A s)
    (hk : k < F.ends.length) (hn : n.isExit = true) (hparts : ExitParts base n) :
    Rearranged base F k (· = k) A A s (s.setNode (A.exit k) n) := by
  refine ⟨hA.setExit h hk hn hparts, alters_setNode (.inr (.inl (hA.perm k hk))),
    hA.keeps (alters_setNode (.inr (.inl ⟨k, hk, rfl⟩))), fun m hm hne => ⟨rfl, ?_⟩, fun m i hi _ => ?_⟩
  · exact cell_setNode_of_ne fun heq => hne (hA.inj m k hm hk heq)
  · rw [Store.node, cell_setNode_of_ne (hA.exit_ne h hk hi).symm, Store.node]

theorem Arranged.rearrange_grow (h : Bodies base lo F) (hA : Arranged base F A s) (hg : Grows s s') :
    Rearranged base F k T A A s s' := by
  have hsame : ∀ j, F.Part j → s'.cell j = s.cell j := fun j hj =>
    hg.cell j (Nat.lt_of_lt_of_le (h.part_inside hj) hA.size)
  refine ⟨hA.keep hg.size hsame, hg.alters, hg.keeps,
    fun m hm _ => ⟨rfl, hg.cell _ (hA.exit_inside hm)⟩, fun m i hi _ => ?_⟩
  rw [Store.node, hg.cell i (hA.block_inside hi), Store.node]

/-! ## Exits that change places -/

variable {w : Work Unit}

theorem succeeds_addressOf {post : Int → Work Unit → Prop} (hc : w.store.cell i = ⟨n, some a, false⟩)
    (h : post a w) : Succeeds (addressOf i) w post := by
  refine (succeeds_cell ?_).bind
  rw [hc]
  exact .pure h

/-- The store in which two blocks have exchanged their exits. -/
structure Exchanged (s : Store) (start stop : NodeId) (b c : Block) (n m : Node) (a a' : Int)
    (s' : Store) : Prop where
  alters : Alters (· ∈ [start, stop, b.exit, c.exit]) s s'
  start : s'.cell start = ⟨.block { b with exit := c.exit }, none, false⟩
  stop : s'.cell stop = ⟨.block { c with exit := b.exit }, none, false⟩
  startExit : s'.cell b.exit = ⟨n, some a', false⟩
  stopExit : s'.cell c.exit = ⟨m, some a, false⟩

theorem succeeds_exchangeExits (hb : w.store.cell start = ⟨.block b, none, false⟩)
    (hc : w.store.cell stop = ⟨.block c, none, false⟩) (he : w.store.cell b.exit = ⟨n, some a, false⟩)
    (he' : w.store.cell c.exit = ⟨m, some a', false⟩) (hne : start ≠ stop) (hx : b.exit ≠ c.exit)
    (hn : n.isExit = true) (hm : m.isExit = true) :
    Succeeds (exchangeExits start stop) w fun _ w' =>
      Exchanged w.store start stop b c n m a a' w'.store := by
  have hblock : ∀ {i j : NodeId} {x : Block} {y : Node} {z : Int}, w.store.cell i = ⟨.block x, none, false⟩ →
      w.store.cell j = ⟨y, some z, false⟩ → i ≠ j := by
    rintro i j x y z hi hj rfl
    cases congrArg Cell.address (hi.symm.trans hj)
  have hexit : ∀ {y : Node}, y.isExit = true → y ≠ .absent := by
    rintro _ hy rfl
    cases hy
  have hin := inside_of_cell hb (by simp)
  have hin' := inside_of_cell hc (by simp)
  have hine := inside_of_cell he (hexit hn)
  have hine' := inside_of_cell he' (hexit hm)
  have h1 := hblock hb he
  have h2 := hblock hb he'
  have h3 := hblock hc he
  have h4 := hblock hc he'
  have hnode : ∀ {s : Store} {i : NodeId} {x : Block}, s.cell i = ⟨.block x, none, false⟩ →
      s.node i = .block x := fun hi => congrArg Cell.node hi
  refine (succeeds_block (hnode hb) ?_).bind
  refine (succeeds_block (hnode hc) ?_).bind
  refine (succeeds_addressOf he' ?_).bind
  refine (succeeds_addressOf he ?_).bind
  refine (succeeds_modifyStore ?_).bind
  refine (succeeds_modifyStore ?_).bind
  generalize hs2 : (w.store.modifyCell b.exit fun c => { c with address := some a' }).modifyCell c.exit
    (fun c => { c with address := some a }) = s2
  have hcell2 : ∀ {i : NodeId}, i ≠ b.exit → i ≠ c.exit → s2.cell i = w.store.cell i := by
    intro i hi hi'
    rw [← hs2, cell_modifyCell_of_ne hi', cell_modifyCell_of_ne hi]
  have hb2 : s2.cell b.exit = ⟨n, some a', false⟩ := by
    rw [← hs2, cell_modifyCell_of_ne hx, cell_modifyCell_self hine, he]
  have hc2 : s2.cell c.exit = ⟨m, some a, false⟩ := by
    rw [← hs2, cell_modifyCell_self (by rw [size_modifyCell]; exact hine'),
      cell_modifyCell_of_ne hx.symm, he']
  have hsize2 : s2.cells.size = w.store.cells.size := by rw [← hs2, size_modifyCell, size_modifyCell]
  have hstop2 := (hcell2 h3 h4).trans hc
  have hstart2 := (hcell2 h1 h2).trans hb
  refine (succeeds_modifyBlock (hnode hstop2) ?_).bind
  have hstart3 := (cell_setNode_of_ne (s := s2) (n := .block { c with exit := b.exit }) hne).trans hstart2
  refine succeeds_modifyBlock (hnode hstart3) ⟨⟨?_, fun i _ hi => ?_⟩, ?_, ?_, ?_, ?_⟩
  · rw [size_setNode, size_setNode, hsize2]
  · simp only [List.mem_cons, List.not_mem_nil, or_false, not_or] at hi
    rw [cell_setNode_of_ne hi.1, cell_setNode_of_ne hi.2.1, hcell2 hi.2.2.1 hi.2.2.2]
  · rw [cell_setNode_self (by rw [size_setNode, hsize2]; exact hin), hstart3]
  · rw [cell_setNode_of_ne hne.symm, cell_setNode_self (by rw [hsize2]; exact hin'), hstop2]
  · rw [cell_setNode_of_ne h1.symm, cell_setNode_of_ne h3.symm, hb2]
  · rw [cell_setNode_of_ne h2.symm, cell_setNode_of_ne h4.symm, hc2]

/-- Two blocks have each other's exit. -/
def Arrangement.exchange (A : Arrangement) (j k : Nat) : Arrangement :=
  { A with exit := fun m => if m = j then A.exit k else if m = k then A.exit j else A.exit m }

theorem Arrangement.exchange_left (A : Arrangement) (j k : Nat) : (A.exchange j k).exit j = A.exit k :=
  if_pos rfl

theorem Arrangement.exchange_right (A : Arrangement) (j k : Nat) : (A.exchange j k).exit k = A.exit j := by
  by_cases hkj : k = j
  · simp [exchange, hkj]
  · simp [exchange, hkj]

theorem Arrangement.exchange_of_ne (A : Arrangement) {m : Nat} (hj : m ≠ j) (hk : m ≠ k) :
    (A.exchange j k).exit m = A.exit m := by
  simp [exchange, hj, hk]

theorem Exchanged.touches (hx : Exchanged s start stop b c n m a a' s') (hj : j < F.ends.length)
    (hk : k < F.ends.length) (hstart : F.blocks[j]? = some start) (hstop : F.blocks[k]? = some stop)
    (hb : b.exit = A.exit j) (hc : c.exit = A.exit k) : Alters (A.Touches base F) s s' := by
  refine hx.alters.mono fun i _ hi => ?_
  simp only [List.mem_cons, List.not_mem_nil, or_false] at hi
  rcases hi with rfl | rfl | rfl | rfl
  · exact .inl (List.mem_of_getElem? hstart)
  · exact .inl (List.mem_of_getElem? hstop)
  · exact .inr (.inl ⟨j, hj, hb⟩)
  · exact .inr (.inl ⟨k, hk, hc⟩)

section
variable (h : Bodies base lo F) (hA : Arranged base F A s) (hj : j < F.ends.length)
  (hk : k < F.ends.length) (hjk : j ≠ k) {z : Int} (hstart : F.blocks[j]? = some start)
  (hstop : F.blocks[k]? = some stop) (hnode : s.node (A.exit j) = n) (hnode' : s.node (A.exit k) = m)
  (hx : Exchanged s start stop (A.row F j z e) (A.row F k x' e') n m (F.exitAddress j)
    (F.exitAddress k) s')
include h hA hj hk hjk hstart hstop hnode hnode' hx

theorem Arranged.exchange : Arranged base F (A.exchange j k) s' := by
  have hother : ∀ i : NodeId, i.index < s.cells.size → i ≠ start → i ≠ stop → i ≠ A.exit j →
      i ≠ A.exit k → s'.cell i = s.cell i := fun i hi h1 h2 h3 h4 =>
    hx.alters.cell i hi (by simp [h1, h2, h3, h4])
  have hcases : ∀ m', m' = j ∨ m' = k ∨ (m' ≠ j ∧ m' ≠ k) := fun m' => by omega
  refine { hA with
    size := Nat.le_trans hA.size hx.alters.size
    block := fun m' i hm' => ?_, perm := fun m' hm' => ?_, inj := fun m1 m2 h1 h2 heq => ?_
    exit := fun m' hm' => ?_, line := fun {a i} ha => ?_ }
  · simp only [Arrangement.row]
    rcases hcases m' with rfl | rfl | ⟨hne, hne'⟩
    · obtain rfl : i = start := Option.some.inj (hm'.symm.trans hstart)
      exact ⟨z, e, by rw [hx.start, A.exchange_left]; rfl⟩
    · obtain rfl : i = stop := Option.some.inj (hm'.symm.trans hstop)
      exact ⟨x', e', by rw [hx.stop, A.exchange_right]; rfl⟩
    · obtain ⟨x, e, hcell⟩ := hA.block m' i hm'
      refine ⟨x, e, ?_⟩
      rw [hother i (hA.block_inside hm') (h.block_ne hm' hstart hne) (h.block_ne hm' hstop hne')
        (hA.exit_ne h hj hm').symm (hA.exit_ne h hk hm').symm, hcell, A.exchange_of_ne hne hne']
      rfl
  · rcases hcases m' with rfl | rfl | ⟨hne, hne'⟩
    · rw [A.exchange_left]
      exact hA.perm k hk
    · rw [A.exchange_right]
      exact hA.perm j hj
    · rw [A.exchange_of_ne hne hne']
      exact hA.perm m' hm'
  · have hplace : ∀ l, l < F.ends.length → ∃ l' < F.ends.length, (A.exchange j k).exit l = A.exit l' ∧
        (l = j ∧ l' = k ∨ l = k ∧ l' = j ∨ l ≠ j ∧ l ≠ k ∧ l' = l) := by
      intro l hl
      rcases hcases l with rfl | rfl | ⟨hne, hne'⟩
      · exact ⟨k, hk, A.exchange_left .., .inl ⟨rfl, rfl⟩⟩
      · exact ⟨j, hj, A.exchange_right .., .inr (.inl ⟨rfl, rfl⟩)⟩
      · exact ⟨l, hl, A.exchange_of_ne hne hne', .inr (.inr ⟨hne, hne', rfl⟩)⟩
    obtain ⟨l1, hl1, he1, hc1⟩ := hplace m1 h1
    obtain ⟨l2, hl2, he2, hc2⟩ := hplace m2 h2
    have := hA.inj l1 l2 hl1 hl2 (he1.symm.trans (heq.trans he2))
    omega
  · rcases hcases m' with rfl | rfl | ⟨hne, hne'⟩
    · obtain ⟨n', hcell, hexit, hparts⟩ := hA.exit k hk
      obtain rfl : n' = m := (congrArg Cell.node hcell).symm.trans hnode'
      exact ⟨n', by rw [A.exchange_left]; exact hx.stopExit, hexit, hparts⟩
    · obtain ⟨n', hcell, hexit, hparts⟩ := hA.exit j hj
      obtain rfl : n' = n := (congrArg Cell.node hcell).symm.trans hnode
      exact ⟨n', by rw [A.exchange_right]; exact hx.startExit, hexit, hparts⟩
    · obtain ⟨n', hcell, hexit, hparts⟩ := hA.exit m' hm'
      refine ⟨n', ?_, hexit, hparts⟩
      rw [A.exchange_of_ne hne hne', hother _ (hA.exit_inside hm') (hA.exit_ne h hm' hstart)
        (hA.exit_ne h hm' hstop) (fun he => hne (hA.inj _ _ hm' hj he))
        (fun he => hne' (hA.inj _ _ hm' hk he)), hcell]
  · have hin : i.index < s.cells.size :=
      Nat.lt_of_lt_of_le (h.lines.inside ha).2 hA.size
    rw [hother i hin (h.line_ne ha hstart) (h.line_ne ha hstop) (hA.exit_ne_line h hj ha)
      (hA.exit_ne_line h hk ha), hA.line ha]
    rfl

theorem Arranged.rearrange_exchange (hcell : s.cell start = ⟨.block (A.row F j z e), none, false⟩) :
    Rearranged base F k (fun m => m = k ∨ m = j) A (A.exchange j k) s s' := by
  have halters : Alters (A.Touches base F) s s' := hx.touches hj hk hstart hstop rfl rfl
  refine ⟨hA.exchange h hj hk hjk hstart hstop hnode hnode' hx, halters.mono fun i _ => hA.moves,
    hA.keeps halters, fun m hm hne => ?_, fun m i hi hne => ?_⟩
  · have hmk : m ≠ k := fun he => hne (.inl he)
    have hmj : m ≠ j := fun he => hne (.inr he)
    refine ⟨A.exchange_of_ne hmj hmk, hx.alters.cell _ (hA.exit_inside hm) ?_⟩
    simp only [List.mem_cons, List.not_mem_nil, or_false, not_or]
    exact ⟨hA.exit_ne h hm hstart, hA.exit_ne h hm hstop, fun he => hmj (hA.inj _ _ hm hj he),
      fun he => hmk (hA.inj _ _ hm hk he)⟩
  · by_cases hij : i = start
    · subst hij
      rw [Store.node, hx.start, Store.node, hcell]
      rfl
    · rw [Store.node, hx.alters.cell i (hA.block_inside hi) ?_, Store.node]
      simp only [List.mem_cons, List.not_mem_nil, or_false, not_or]
      exact ⟨hij, h.block_ne hi hstop hne, (hA.exit_ne h hj hi).symm, (hA.exit_ne h hk hi).symm⟩

end

/-! ## Returns that move -/

theorem succeeds_items_block {post : List NodeId → Work Unit → Prop} (hb : w.store.node i = .block b)
    (h : post b.contents w) : Succeeds (items i) w post := by
  refine (succeeds_node ?_).bind
  rw [hb]
  exact .pure h

theorem succeeds_setItems_block {xs : List NodeId} {post : Unit → Work Unit → Prop}
    (hb : w.store.node i = .block b)
    (h : post () { w with store := w.store.setNode i (.block { b with contents := xs }) }) :
    Succeeds (setItems i xs) w post := by
  refine (succeeds_node ?_).bind
  rw [hb]
  exact succeeds_modifyStore h

/-- The store in which the only statement `x` of block `t` has moved to the end of block `i` and
has got the address `a`. -/
structure StatementMoved (s : Store) (i t x : NodeId) (b c : Block) (a : Int) (s' : Store) : Prop where
  alters : Alters (· ∈ [i, t, x]) s s'
  statement : s'.cell x = { s.cell x with address := some a }
  target : s'.cell t = ⟨.block { c with contents := [] }, none, false⟩
  source : i ≠ t → s'.cell i = ⟨.block { b with contents := b.contents ++ [x] }, none, false⟩

theorem succeeds_moveStatement (hb : w.store.cell i = ⟨.block b, none, false⟩)
    (hc : w.store.cell t = ⟨.block c, none, false⟩) (hx : x.index < w.store.cells.size) (hxi : x ≠ i)
    (hxt : x ≠ t) :
    Succeeds (do
      appendItem i x
      setAddress x (← block i).last
      setItems t []) w fun _ w' => StatementMoved w.store i t x b c b.last w'.store := by
  have hin := inside_of_cell hb (by simp)
  have hit := inside_of_cell hc (by simp)
  have hnode : ∀ {s : Store} {i : NodeId} {x : Block}, s.cell i = ⟨.block x, none, false⟩ →
      s.node i = .block x := fun hi => congrArg Cell.node hi
  unfold appendItem
  simp only [bind_assoc]
  refine (succeeds_items_block (hnode hb) ?_).bind
  refine (succeeds_setItems_block (hnode hb) ?_).bind
  have hcell1 : (w.store.setNode i (.block { b with contents := b.contents ++ [x] })).cell i =
      ⟨.block { b with contents := b.contents ++ [x] }, none, false⟩ := by
    rw [cell_setNode_self hin, hb]
  have hother1 : ∀ {j : NodeId}, j ≠ i →
      (w.store.setNode i (.block { b with contents := b.contents ++ [x] })).cell j = w.store.cell j :=
    fun hj => cell_setNode_of_ne hj
  have hsize1 : (w.store.setNode i (.block { b with contents := b.contents ++ [x] })).cells.size =
      w.store.cells.size := size_setNode ..
  generalize w.store.setNode i (.block { b with contents := b.contents ++ [x] }) = s1 at *
  refine (succeeds_block (hnode hcell1) ?_).bind
  refine (succeeds_modifyStore ?_).bind
  have hcell2 : ∀ {j : NodeId}, j ≠ x →
      (s1.modifyCell x fun c => { c with address := some b.last }).cell j = s1.cell j :=
    fun hj => cell_modifyCell_of_ne hj
  have hself2 : (s1.modifyCell x fun c => { c with address := some b.last }).cell x =
      { w.store.cell x with address := some b.last } := by
    rw [cell_modifyCell_self (by rw [hsize1]; exact hx), hother1 hxi]
  have hsize2 : (s1.modifyCell x fun c => { c with address := some b.last }).cells.size =
      w.store.cells.size := by rw [size_modifyCell, hsize1]
  generalize s1.modifyCell x (fun c => { c with address := some b.last }) = s2 at *
  -- If the statement moves to the block that it comes from, that block is changed twice.
  obtain ⟨c', hc', hshape⟩ : ∃ c', s2.cell t = ⟨.block c', none, false⟩ ∧
      ({ c' with contents := [] } : Block) = { c with contents := [] } := by
    by_cases hti : t = i
    · subst hti
      rw [hb] at hc
      obtain rfl : b = c := Node.block.inj (congrArg Cell.node hc)
      exact ⟨{ b with contents := b.contents ++ [x] }, by rw [hcell2 hxt.symm, hcell1], rfl⟩
    · exact ⟨c, by rw [hcell2 hxt.symm, hother1 hti, hc], rfl⟩
  refine succeeds_setItems_block (hnode hc') ⟨⟨?_, fun j _ hj => ?_⟩, ?_, ?_, fun hne => ?_⟩
  · rw [size_setNode, hsize2]
  · simp only [List.mem_cons, List.not_mem_nil, or_false, not_or] at hj
    rw [cell_setNode_of_ne hj.2.1, hcell2 hj.2.2, hother1 hj.1]
  · rw [cell_setNode_of_ne hxt, hself2]
  · rw [cell_setNode_self (by rw [hsize2]; exact hit), hc', hshape]
  · rw [cell_setNode_of_ne hne, hcell2 hxi.symm, hcell1]

/-- The only statement `x` of block `j` has moved to the end of block `k` and has the address `a`. -/
def Arrangement.moveTo (A : Arrangement) (j k : Nat) (x : NodeId) (a : Int) : Arrangement :=
  { A with
    contents := fun m => if m = j then [] else if m = k then A.contents k ++ [x] else A.contents m
    address := fun y => if y = x then a else A.address y }

/-- The statements of a place after the move: none, one more or those it had. -/
theorem Arrangement.contents_moveTo (A : Arrangement) (j k : Nat) (x : NodeId) (a : Int) (m : Nat) :
    (m = j ∧ (A.moveTo j k x a).contents m = []) ∨
      (m ≠ j ∧ m = k ∧ (A.moveTo j k x a).contents m = A.contents m ++ [x]) ∨
      (m ≠ j ∧ m ≠ k ∧ (A.moveTo j k x a).contents m = A.contents m) := by
  by_cases hmj : m = j
  · simp [moveTo, hmj]
  · by_cases hmk : m = k
    · subst hmk
      simp [moveTo, hmj]
    · simp [moveTo, hmj, hmk]

theorem Arrangement.mem_moveTo {m : Nat} {y : NodeId} (h : y ∈ (A.moveTo j k x a).contents m) :
    (y = x ∧ m = k ∧ m ≠ j) ∨ (y ∈ A.contents m ∧ m ≠ j) := by
  rcases A.contents_moveTo j k x a m with ⟨-, hc⟩ | ⟨hmj, hmk, hc⟩ | ⟨hmj, -, hc⟩ <;> rw [hc] at h
  · cases h
  · rcases List.mem_append.mp h with h | h
    · exact .inr ⟨h, hmj⟩
    · exact .inl ⟨List.mem_singleton.mp h, hmk, hmj⟩
  · exact .inr ⟨h, hmj⟩

theorem StatementMoved.touches (hm : StatementMoved s i t x b c a' s') (hi : F.blocks[k]? = some i)
    (ht : F.blocks[j]? = some t) (hx : F.line a = some x) (hret : base.node x = .ret vs) :
    Alters (A.Touches base F) s s' := by
  refine hm.alters.mono fun l _ hl => ?_
  simp only [List.mem_cons, List.not_mem_nil, or_false] at hl
  rcases hl with rfl | rfl | rfl
  · exact .inl (List.mem_of_getElem? hi)
  · exact .inl (List.mem_of_getElem? ht)
  · exact .inr (.inr ⟨a, vs, hx, hret⟩)

theorem Arranged.ne_of_only {m : Nat} {l : NodeId} (hA : Arranged base F A s) (hj : j < F.ends.length)
    (hcontents : A.contents j = [x]) (hm : m < F.ends.length) (hmj : m ≠ j) (hl : l ∈ A.contents m) :
    l ≠ x := by
  rintro rfl
  exact hmj (hA.apart m j hm hj l hl (by rw [hcontents]; exact List.mem_cons_self))

/-- The statements of each block are still different ones, in order. -/
theorem Arranged.pairwise_moveTo {m : Nat} (hA : Arranged base F A s) (hj : j < F.ends.length)
    (hcontents : A.contents j = [x]) (ha : F.exitAddress k ≤ a) (hm : m < F.ends.length) :
    ((A.moveTo j k x a).contents m).Nodup ∧ ((A.moveTo j k x a).contents m).Pairwise fun u v =>
      (A.moveTo j k x a).address u ≤ (A.moveTo j k x a).address v := by
  have hsorted : m ≠ j → (A.contents m).Pairwise fun u v =>
      (A.moveTo j k x a).address u ≤ (A.moveTo j k x a).address v := by
    refine fun hmj => (hA.sorted m hm).imp_of_mem fun hu hv huv => ?_
    have hne := fun {l} => hA.ne_of_only (l := l) hj hcontents hm hmj
    simpa [Arrangement.moveTo, hne hu, hne hv] using huv
  rcases A.contents_moveTo j k x a m with ⟨-, hc⟩ | ⟨hmj, rfl, hc⟩ | ⟨hmj, -, hc⟩ <;> rw [hc]
  · exact ⟨List.nodup_nil, .nil⟩
  · have hne := fun {l} => hA.ne_of_only (l := l) hj hcontents hm hmj
    refine ⟨List.nodup_append.mpr ⟨hA.nodup m hm, List.nodup_singleton x, fun u hu v hv => ?_⟩,
      List.pairwise_append.mpr ⟨hsorted hmj, List.pairwise_singleton _ _, fun u hu v hv => ?_⟩⟩
    · rw [List.mem_singleton.mp hv]
      exact hne hu
    · rw [List.mem_singleton.mp hv]
      simpa [Arrangement.moveTo, hne hu] using Int.le_trans (hA.bounds m hm u hu).2 ha
  · exact ⟨hA.nodup m hm, hsorted hmj⟩

/-- The block that loses the statement, the one that gets it and those that stay. -/
theorem Arranged.block_moveTo {m : Nat} {l : NodeId} (h : Bodies base lo F) (hA : Arranged base F A s)
    (hi : F.blocks[k]? = some i) (ht : F.blocks[j]? = some t) (hx : F.line a = some x)
    (hm : StatementMoved s i t x (A.row F k y e) (A.row F j y' e') a' s') (hl : F.blocks[m]? = some l) :
    ∃ z e, s'.cell l = ⟨.block ((A.moveTo j k x a').row F m z e), none, false⟩ := by
  simp only [Arrangement.row]
  rcases A.contents_moveTo j k x a' m with ⟨rfl, hc⟩ | ⟨hmj, rfl, hc⟩ | ⟨hmj, hmk, hc⟩ <;> rw [hc]
  · obtain rfl : l = t := Option.some.inj (hl.symm.trans ht)
    exact ⟨y', e', hm.target⟩
  · obtain rfl : l = i := Option.some.inj (hl.symm.trans hi)
    exact ⟨y, e, hm.source (h.block_ne hl ht hmj)⟩
  · obtain ⟨z, e, hcell⟩ := hA.block m l hl
    refine ⟨z, e, (hm.alters.cell l (hA.block_inside hl) ?_).trans hcell⟩
    simp [h.block_ne hl hi hmk, h.block_ne hl ht hmj, (h.line_ne hx hl).symm]

section
variable (h : Bodies base lo F) (hA : Arranged base F A s) (hj : j < F.ends.length)
  (hi : F.blocks[k]? = some i) (ht : F.blocks[j]? = some t) (hcontents : A.contents j = [x])
  (hlast : F.exitAddress k = lastOf F.ends k)
  (hm : StatementMoved s i t x (A.row F k y e) (A.row F j y' e') (lastOf F.ends k) s')
include h hA hj hi ht hcontents hlast hm

/-- A return may move to the end of a block whose exit has the last address of the block. -/
theorem Arranged.moveTo : Arranged base F (A.moveTo j k x (lastOf F.ends k)) s' := by
  obtain ⟨a, hx⟩ := hA.lines j hj x (by rw [hcontents]; exact List.mem_cons_self)
  have hother : ∀ l : NodeId, l.index < s.cells.size → l ≠ i → l ≠ t → l ≠ x → s'.cell l = s.cell l :=
    fun l hl h1 h2 h3 => hm.alters.cell l hl (by simp [h1, h2, h3])
  have hpairwise := fun m => hA.pairwise_moveTo (m := m) hj hcontents (Int.le_of_eq hlast)
  refine { hA with
    size := Nat.le_trans hA.size hm.alters.size
    block := fun m l hl => hA.block_moveTo h hi ht hx hm hl, exit := fun m hmlt => ?_
    line := fun {b l} hl => ?_, lines := fun m hmlt l hl => ?_
    apart := fun m m' hm1 hm2 l hl hl' => ?_
    nodup := fun m hmlt => (hpairwise m hmlt).1, sorted := fun m hmlt => (hpairwise m hmlt).2
    bounds := fun m hmlt l hl => ?_ }
  · obtain ⟨n, hcell, hexit, hparts⟩ := hA.exit m hmlt
    exact ⟨n, (hother _ (hA.exit_inside hmlt) (hA.exit_ne h hmlt hi) (hA.exit_ne h hmlt ht)
      (hA.exit_ne_line h hmlt hx).symm).trans hcell, hexit, hparts⟩
  · by_cases hlx : l = x
    · subst hlx
      rw [hm.statement, hA.line hl]
      simp [Arrangement.moveTo]
    · have hin : l.index < s.cells.size := Nat.lt_of_lt_of_le (h.lines.inside hl).2 hA.size
      rw [hother l hin (h.line_ne hl hi) (h.line_ne hl ht) hlx, hA.line hl]
      simp [Arrangement.moveTo, hlx]
  · rcases Arrangement.mem_moveTo hl with ⟨rfl, -, -⟩ | ⟨hl, -⟩
    · exact ⟨a, hx⟩
    · exact hA.lines m hmlt l hl
  · rcases Arrangement.mem_moveTo hl with ⟨hlx, rfl, -⟩ | ⟨hold, hmj⟩ <;>
      rcases Arrangement.mem_moveTo hl' with ⟨hlx', rfl, -⟩ | ⟨hold', hmj'⟩
    · rfl
    · exact absurd hlx (hA.ne_of_only hj hcontents hm2 hmj' hold')
    · exact absurd hlx' (hA.ne_of_only hj hcontents hm1 hmj hold)
    · exact hA.apart m m' hm1 hm2 l hold hold'
  · rcases Arrangement.mem_moveTo hl with ⟨rfl, rfl, hmj⟩ | ⟨hl, hmj⟩
    · have hle := h.blockEnds.firstOf_le_lastOf hmlt
      simp only [Arrangement.moveTo, if_true]
      exact ⟨hle, Int.le_of_eq hlast.symm⟩
    · have hne := hA.ne_of_only hj hcontents hmlt hmj hl
      simpa [Arrangement.moveTo, hne] using hA.bounds m hmlt l hl

theorem Arranged.rearrange_moveTo (hret : base.node x = .ret vs)
    (hcell : s.cell t = ⟨.block (A.row F j y' e'), none, false⟩) :
    Rearranged base F k T A (A.moveTo j k x (lastOf F.ends k)) s s' := by
  obtain ⟨a, hx⟩ := hA.lines j hj x (by rw [hcontents]; exact List.mem_cons_self)
  have halters : Alters (A.Touches base F) s s' := hm.touches hi ht hx hret
  refine ⟨hA.moveTo h hj hi ht hcontents hlast hm, halters.mono fun l _ => hA.moves,
    hA.keeps halters, fun m hm' _ => ⟨rfl, hm.alters.cell _ (hA.exit_inside hm') ?_⟩, fun m l hl hne => ?_⟩
  · simp only [List.mem_cons, List.not_mem_nil, or_false, not_or]
    exact ⟨hA.exit_ne h hm' hi, hA.exit_ne h hm' ht, (hA.exit_ne_line h hm' hx).symm⟩
  · by_cases hlt : l = t
    · subst hlt
      rw [Store.node, hm.target, Store.node, hcell]
      rfl
    · rw [Store.node, hm.alters.cell l (hA.block_inside hl) ?_, Store.node]
      simp only [List.mem_cons, List.not_mem_nil, or_false, not_or]
      exact ⟨h.block_ne hl hi hne, hlt, (h.line_ne hx hl).symm⟩

end

theorem ExitParts.jump : ExitParts s (.jump kind t closes) :=
  trivial

/-! ## The first arrangement -/

/-- The arrangement that lifting leaves. -/
def Frame.arrangement (F : Frame) (s : Store) : Arrangement where
  exit := F.exit
  contents := bodyOf F.p.instructions F.ends F.line
  address i := ((s.cell i).address).getD 0

theorem pairwise_addresses (first last : Int) : (addresses first last).Pairwise (· < ·) := by
  refine List.pairwise_map.mpr (List.pairwise_lt_range.imp fun h => ?_)
  omega

theorem mem_bodyOf {code : List Instruction} {line : Int → Option NodeId}
    (h : i ∈ bodyOf code ends line k) :
    ∃ a, line a = some i ∧ firstOf ends k ≤ a ∧ a ≤ stopOf code ends k := by
  obtain ⟨a, ha, hl⟩ := List.mem_filterMap.mp h
  exact ⟨a, hl, mem_addresses.mp ha⟩

theorem Bodies.address_eq (h : Bodies base lo F) (ha : F.line a = some i) :
    (F.arrangement base).address i = a := by
  simp only [Frame.arrangement, h.lines.address ha, Option.getD_some]

theorem Bodies.stopOf_le (h : Bodies base lo F) (hk : k < F.ends.length) :
    stopOf F.p.instructions F.ends k ≤ lastOf F.ends k :=
  (stopOf_inside h.wellFormed.branching h.wellFormed.iteratorsCalled h.blockEnds hk).2.1

theorem Bodies.exit_cell (h : Bodies base lo F) (hk : k < F.ends.length) :
    ∃ n, base.cell (F.exit k) = ⟨n, some (F.exitAddress k), false⟩ ∧ n.isExit = true ∧ ExitParts base n := by
  have hnode := h.exit_node hk
  by_cases hlast : k + 1 = F.ends.length
  · have hfinal := h.final
    rw [← h.blockEnds.lastOf_final hlast, show F.ends.length - 1 = k by omega] at hfinal
    exact ⟨.stop .absent, by rw [Frame.exitAddress, if_pos hlast, hfinal], rfl, trivial⟩
  · obtain ⟨n, hcell, -, hparts⟩ := h.shown k (by omega)
    rw [Store.node, hcell] at hnode
    exact ⟨n, by rw [Frame.exitAddress, if_neg hlast, hcell], hnode, hparts⟩

theorem Bodies.bodyOf_sorted (h : Bodies base lo F) :
    (bodyOf F.p.instructions F.ends F.line k).Pairwise fun x y =>
      (F.arrangement base).address x < (F.arrangement base).address y := by
  refine (pairwise_addresses _ _).filterMap _ fun a b hab x hx y hy => ?_
  rw [h.address_eq hx, h.address_eq hy]
  exact hab

theorem Bodies.arranged (h : Bodies base lo F) (hsize : base.cells.size ≤ s.cells.size)
    (hsame : ∀ i, F.Part i → s.cell i = base.cell i) : Arranged base F (F.arrangement base) s where
  size := hsize
  block k i hi := by
    obtain ⟨e, hcell⟩ := h.block k i hi
    exact ⟨k, e, (hsame i (.inl (List.mem_of_getElem? hi))).trans hcell⟩
  perm k hk := ⟨k, hk, rfl⟩
  inj j k hj hk he := h.exit_inj hj hk he
  exit k hk := by
    obtain ⟨n, hcell, hn, hparts⟩ := h.exit_cell hk
    exact ⟨n, (hsame _ (.inr (.inl ⟨k, hk, rfl⟩))).trans hcell, hn, hparts⟩
  line {a i} ha := by
    have haddr := h.lines.address ha
    rw [hsame i (.inr (.inr ⟨a, ha⟩)), h.address_eq ha]
    cases hc : base.cell i with
    | mk n x d =>
      rw [hc] at haddr
      rw [show x = some a from haddr]
  lines k hk i hi := by
    obtain ⟨a, ha, -⟩ := mem_bodyOf hi
    exact ⟨a, ha⟩
  apart j k hj hk i hi hi' := by
    obtain ⟨a, ha, h1, h2⟩ := mem_bodyOf hi
    obtain ⟨b, hb, h3, h4⟩ := mem_bodyOf hi'
    obtain rfl : a = b := (h.address_eq ha).symm.trans (h.address_eq hb)
    have := h.stopOf_le hj
    have := h.stopOf_le hk
    exact h.blockEnds.eq_of_inside hj hk h1 (by omega) h3 (by omega)
  nodup k hk := h.bodyOf_sorted.imp fun hlt he => by
    rw [he] at hlt
    exact absurd hlt (Int.lt_irrefl _)
  sorted k hk := h.bodyOf_sorted.imp Int.le_of_lt
  bounds k hk i hi := by
    obtain ⟨a, ha, h1, h2⟩ := mem_bodyOf hi
    rw [h.address_eq ha]
    have := h.stopOf_le hk
    rw [Frame.exitAddress]
    split <;> omega

end LuaLift.Proofs
