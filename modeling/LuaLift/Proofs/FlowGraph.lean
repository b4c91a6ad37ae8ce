import LuaLift.Proofs.BlockExits

/-! # The graph of blocks

The blocks of well-formed code with their exits are its control flow (`FlowGraph`): they lie side
by side and cover the code, each leads to the blocks that start where its last instruction goes
on, and counts how many exits lead to it. -/
namespace LuaLift.Proofs
open Bytecode Tree Pass Lift

variable {code : List Instruction} {ends : List Int} {k : Nat} {p : Prototype} {valid : Prop}
variable {starts : Starts} {blocks : List NodeId} {f : Nat → Block} {w : Work Unit}

/-! ## The last two instructions -/

variable {α : Type} {a : Int} {at_ : Int → NodeId → Prop} {xs : List α} {n : Node} {e i : NodeId}
  {s s' : Store} {way : Way} {x : α}

theorem slice_ofNat {start stop : Nat} (h : start ≤ stop) (hs : stop ≤ xs.length) :
    slice xs start stop = (xs.drop start).take (stop - start) := by
  have hclamp : ∀ n : Nat, n ≤ xs.length →
      (min (max (if (n : Int) < 0 then n + (xs.length : Int) else n) 0) xs.length).toNat = n := by
    omega
  simp only [slice, hclamp stop hs, hclamp start (Nat.le_trans h hs), List.drop_take]

theorem drop_of_getElem? {n : Nat} (h : xs[n]? = some x) : xs.drop n = x :: xs.drop (n + 1) := by
  obtain ⟨hn, rfl⟩ := List.getElem?_eq_some_iff.mp h
  exact List.drop_eq_getElem_cons hn

theorem window_eq (he : BlockEnds code ends) (hk : k < ends.length) {last : Instruction}
    (hlast : code[(lastOf ends k).toNat]? = some last) :
    (slice code (max (lastOf ends k - 1) (firstOf ends k)) (lastOf ends k + 1)).reverse =
      last :: (beforeIn code ends k).toList := by
  have hpos := he.firstOf_pos (k := k) (by omega)
  have hle := he.firstOf_le_lastOf hk
  have hlen := (List.getElem?_eq_some_iff.mp hlast).1
  obtain ⟨n, hn⟩ : ∃ n : Nat, lastOf ends k = n := ⟨(lastOf ends k).toNat, by omega⟩
  rw [hn] at hlast hlen hle ⊢
  rw [Int.toNat_natCast] at hlast hlen
  rw [beforeIn, hn]
  by_cases hlt : firstOf ends k < n
  · obtain ⟨m, rfl⟩ : ∃ m, n = m + 1 := ⟨n - 1, by omega⟩
    have hmax : max ((m + 1 : Nat) - 1 : Int) (firstOf ends k) = (m : Nat) := by omega
    have hstop : ((m + 1 : Nat) : Int) + 1 = (m + 2 : Nat) := by omega
    have hbefore := List.getElem?_eq_getElem (l := code) (i := m) (by omega)
    have hm : (((m + 1 : Nat) : Int) - 1).toNat = m := by omega
    rw [if_pos hlt, hm, hbefore, hmax, hstop, slice_ofNat (by omega) (by omega),
      drop_of_getElem? hbefore, drop_of_getElem? hlast]
    simp
  · have hmax : max ((n : Int) - 1) (firstOf ends k) = (n : Nat) := by omega
    have hstop : (n : Int) + 1 = (n + 1 : Nat) := by omega
    rw [if_neg hlt, hmax, hstop, slice_ofNat (by omega) (by omega), drop_of_getElem? hlast]
    simp

/-! ## Setting one exit -/

theorem Framed.setExit (hf : Framed s blocks f) (hn : blocks.Nodup) (hi : blocks[k]? = some i)
    (he : e ∉ blocks) (hcell : s.cell e = ⟨n, none, false⟩) (hne : n ≠ .absent) (a : Int)
    (hs : s' = (s.setNode i (.block { f k with exit := e })).modifyCell e
      fun c => { c with address := some a }) :
    Framed s' blocks (fun j => if j = k then { f j with exit := e } else f j) ∧
      s'.cell e = ⟨n, some a, false⟩ ∧ Alters (fun j => j = i ∨ j = e) s s' := by
  subst hs
  have hei : e ≠ i := fun h => he (h ▸ List.mem_of_getElem? hi)
  have hset := hf.set (g := fun j => if j = k then { f j with exit := e } else f j) hn hi
    fun j _ hj => if_neg hj
  rw [if_pos rfl] at hset
  refine ⟨fun j i' hj => ?_, ?_, (alters_setNode (.inl rfl)).trans (alters_modifyCell (.inr rfl))⟩
  · have hne' : i' ≠ e := fun h => he (h ▸ List.mem_of_getElem? hj)
    rw [cell_modifyCell_of_ne hne']
    exact hset j i' hj
  · have hin : e.index < (s.setNode i (.block { f k with exit := e })).cells.size := by
      rw [size_setNode]
      exact inside_of_node (by rw [Store.node, hcell]; exact hne)
    rw [cell_modifyCell_self hin, cell_setNode_of_ne hei, hcell]

theorem Leads.outer (h : Leads at_ way n) : n ≠ .absent ∧ isInner n = false := by
  cases h <;> exact ⟨by simp, rfl⟩

/-- Block `k` has got its exit `e`, which leads where `way` says and stands at `address`. -/
structure Exited (blocks : List NodeId) (f : Nat → Block) (valid : Prop) (k : Nat) (way : Way)
    (address : Int) (w : Work Unit) (e : NodeId) (w' : Work Unit) : Prop where
  framed : Framed w'.store blocks fun j =>
    if j = k then { enter way.targets (f j) with exit := e } else enter way.targets (f j)
  alters : Alters (· ∈ blocks) w.store w'.store
  fresh : w.store.cells.size ≤ e.index
  shown : ∃ n, w'.store.cell e = ⟨n, some address, false⟩ ∧ Leads (StartsAt blocks f) way n ∧
    (valid → ExitParts w'.store n)

theorem Staged.succeeds_setExit (h : Staged p valid ends starts blocks f) (hf : Framed w.store blocks f)
    (hl : (f k).last = lastOf ends k) (hk : k + 1 < ends.length) (hi : blocks[k]? = some i) :
    Succeeds (setExit p starts i) w fun stop w' =>
      stop = lastOf ends k - folded p.instructions (lastOf ends k) ∧
      ∃ e, Exited blocks f valid k (wayFrom p.instructions (lastOf ends k)) (stop + 1) w e w' := by
  have hend := ((h.blockEnds.mem _).mp (lastOf_mem (k := k) (by omega))).1
  have hlt := h.blockEnds.lastOf_lt hk
  obtain ⟨last, hlast⟩ : ∃ last, p.instructions[(lastOf ends k).toNat]? = some last :=
    ⟨_, List.getElem?_eq_getElem (by omega)⟩
  refine (succeeds_block (hf.node hi) ?_).bind
  rw [hl, h.first]
  dsimp only
  rw [window_eq h.blockEnds (by omega) hlast]
  dsimp only
  rw [Option.head?_toList]
  refine (h.succeeds_exitOf hk hf hlast).next fun r w1 ⟨hr, hsize⟩ => ?_
  obtain ⟨e, size⟩ := r
  obtain ⟨n, hcell, hleads, hparts⟩ := hr.shown
  obtain ⟨hne, hinner⟩ := hleads.outer
  have hfresh : w.store.cells.size ≤ e.index := hr.fresh
  have he : e ∉ blocks := fun hm => by
    have := hf.inside hm
    omega
  refine (succeeds_modifyBlock (hr.framed.node hi) ?_).bind
  obtain ⟨hframed, hcell', halters⟩ :=
    hr.framed.setExit h.indexed.nodup hi he hcell hne (lastOf ends k - size + 1) rfl
  have hkeep : Keeps w1.store _ := fun j hj => halters.cell j
      (inside_of_node fun h => by simp [h, isInner] at hj) <| by
    rintro (rfl | rfl)
    · rw [hr.framed.node hi] at hj
      cases hj
    · rw [Store.node, hcell, hinner] at hj
      cases hj
  refine .pure ⟨by rw [hsize], e, hframed, ⟨?_, fun j hj hn => ?_⟩, hfresh, n, hcell', hleads,
    fun hv => (hparts hv).keep hkeep halters.size⟩
  · exact Nat.le_trans hr.alters.size halters.size
  · rw [← hr.alters.cell j hj hn]
    refine halters.cell j (by have := hr.alters.size; omega) ?_
    rintro (rfl | rfl)
    · exact hn (List.mem_of_getElem? hi)
    · omega

/-! ## All blocks -/

/-- The addresses to which the first `k` blocks lead. -/
def targetsBefore (code : List Instruction) (ends : List Int) (k : Nat) : List Int :=
  (List.range k).flatMap fun j => (wayFrom code (lastOf ends j)).targets

/-- A block without statements that is entered from exits with some targets. -/
def blockAt (ends targets : List Int) (exit : Nat → NodeId) (k : Nat) : Block :=
  { index := k, exit := exit k, first := firstOf ends k, last := lastOf ends k
    entries := (targets.count (firstOf ends k) : Nat) }

theorem enter_blockAt (ends targets more : List Int) (exit : Nat → NodeId) (k : Nat) :
    enter more (blockAt ends targets exit k) = blockAt ends (targets ++ more) exit k := by
  simp [enter, blockAt, List.count_append]

theorem ranges_getElem? (hk : k < ends.length) :
    (ranges 0 ends)[k]? = some (firstOf ends k, lastOf ends k) := by
  have hzip : ((0 :: ends).zip ends)[k]? = some ((0 :: ends).getD k 0, ends.getD k 0) := by
    rw [List.getElem?_zip_eq_some, List.getD_eq_getElem _ _ (by simp; omega),
      List.getD_eq_getElem _ _ hk]
    exact ⟨List.getElem?_eq_getElem _, List.getElem?_eq_getElem _⟩
  rw [ranges_eq, List.getElem?_map, hzip]
  rfl

theorem succeeds_mapM_add {g : α → Node} :
    Succeeds (xs.mapM fun x => (add (g x) : Edit NodeId)) w fun ys w' =>
      ys = (List.range xs.length).map (fun k => ⟨w.store.cells.size + k⟩) ∧
      Grows w.store w'.store ∧
      ∀ k x, xs[k]? = some x → w'.store.cell ⟨w.store.cells.size + k⟩ = { node := g x } := by
  have hadd : Succeeds (xs.mapM fun x => (add (g x) : Edit NodeId)) w fun ys w' =>
      ys.length = xs.length ∧ w'.store.cells.size = w.store.cells.size + ys.length ∧
      ys = (List.range ys.length).map (fun k => ⟨w.store.cells.size + k⟩) ∧
      Grows w.store w'.store ∧ ∀ k x, k < ys.length → xs[k]? = some x →
        w'.store.cell ⟨w.store.cells.size + k⟩ = { node := g x } := by
    refine Succeeds.mapM _ ⟨rfl, rfl, .refl _, fun k x hk => by simp at hk⟩ ?_
    rintro ys x v hx ⟨hsize, hys, hg, hcells⟩
    have hpush := grows_push v.store { node := g x }
    refine succeeds_addCell ⟨by simp [hsize]; omega, ?_, hg.trans hpush, fun k x' hk hx' => ?_⟩
    · rw [List.length_append, List.length_singleton, List.range_succ, List.map_append, ← hys, hsize]
      rfl
    · rw [List.length_append, List.length_singleton] at hk
      rcases Nat.lt_succ_iff_lt_or_eq.mp hk with hlt | rfl
      · rw [hpush.cell _ (by simp [hsize]; omega)]
        exact hcells k x' hlt hx'
      · rw [← hsize, cell_push_self]
        rw [Option.some.inj (hx.symm.trans hx')]
  refine hadd.mono fun ys w' ⟨hlen, _, hys, hg, hcells⟩ => ⟨hlen ▸ hys, hg, fun k x hx => ?_⟩
  exact hcells k x (hlen ▸ (List.getElem?_eq_some_iff.mp hx).1) hx

theorem succeeds_addBlocks (h : Jumping code) :
    Succeeds (addBlocks code) w fun blocks w' =>
      blocks.length = (lastsOf code).length ∧ blocks.Nodup ∧
      (∀ i ∈ blocks, w.store.cells.size ≤ i.index) ∧ Grows w.store w'.store ∧
      Framed w'.store blocks (blockAt (lastsOf code) [] fun _ => .absent) := by
  refine ((returns_lastAddresses h).succeeds ?_).bind
  have hlen : (ranges 0 (lastsOf code)).length = (lastsOf code).length := by simp [ranges_eq]
  refine succeeds_mapM_add.mono fun blocks w' ⟨hb, hg, hcells⟩ => ?_
  rw [List.length_zipIdx, hlen] at hb
  subst hb
  refine ⟨by simp, ?_, ?_, hg, fun k i hk => ?_⟩
  · refine List.nodup_range.map fun x y hxy => ?_
    have := congrArg NodeId.index hxy
    simpa using this
  · intro i hi
    obtain ⟨k, -, rfl⟩ := List.mem_map.mp hi
    exact Nat.le_add_right _ _
  · have hkl : k < (lastsOf code).length := by
      have := (List.getElem?_eq_some_iff.mp hk).1
      simpa using this
    obtain rfl : i = ⟨w.store.cells.size + k⟩ := by
      rw [List.getElem?_map, List.getElem?_range hkl] at hk
      exact (Option.some.inj hk).symm
    have hx : (ranges 0 (lastsOf code)).zipIdx[k]? =
        some ((firstOf (lastsOf code) k, lastOf (lastsOf code) k), k) := by
      rw [List.getElem?_zipIdx, ranges_getElem? hkl]
      simp
    rw [hcells k _ hx]
    simp [blockAt]

/-! ## All exits -/

/-- The first address of a block in the store. -/
def firstIn (s : Store) (i : NodeId) : Int :=
  match s.node i with
  | .block b => b.first
  | _ => 0

theorem returns_starts (hf : Framed w.store blocks f) :
    Returns (blocks.mapM fun i => do return ((← block i).first, i)) w
      (blocks.map fun i => (firstIn w.store i, i)) w := by
  refine returns_mapM fun i hi => ?_
  obtain ⟨k, hk⟩ := List.mem_iff_getElem?.mp hi
  have hblock : Returns (block i) w (f k) w := by
    obtain ⟨b, w', hb, rfl, rfl⟩ : Succeeds (block i) w fun b w' => b = f k ∧ w' = w :=
      succeeds_block (hf.node hk) ⟨rfl, rfl⟩
    exact hb
  refine hblock.ofBind ?_
  rw [firstIn, hf.node hk]
  rfl

theorem find?_of_unique {q : α → Bool} (hx : x ∈ xs) (hq : q x = true) (hu : ∀ y ∈ xs, q y = true → y = x) :
    xs.find? q = some x := by
  cases hf : xs.find? q with
  | none => exact absurd hq (by simpa using List.find?_eq_none.mp hf x hx)
  | some y => rw [hu y (List.mem_of_find?_eq_some hf) (List.find?_some hf)]

theorem indexed_starts {targets : List Int} {exit : Nat → NodeId} (he : BlockEnds code ends)
    (hn : blocks.Nodup) (hlen : blocks.length = ends.length)
    (hf : Framed s blocks (blockAt ends targets exit)) :
    Indexed (blocks.map fun i => (firstIn s i, i)).reverse blocks (blockAt ends targets exit) := by
  have hinj : ∀ j k, j < blocks.length → k < blocks.length →
      firstOf ends j = firstOf ends k → j = k :=
    fun j k hj hk heq => he.firstOf_inj (by omega) (by omega) heq
  have hfirst : ∀ k i, blocks[k]? = some i → firstIn s i = firstOf ends k := by
    intro k i hk
    rw [firstIn, hf.node hk]
    rfl
  refine ⟨hn, fun k i hk => find?_of_unique ?_ (by simp) ?_, hinj⟩
  · rw [List.mem_reverse]
    exact List.mem_map.mpr ⟨i, List.mem_of_getElem? hk, by rw [hfirst k i hk]; rfl⟩
  · intro y hy hq
    obtain ⟨i', hi', rfl⟩ := List.mem_map.mp (List.mem_reverse.mp hy)
    obtain ⟨j, hj⟩ := List.mem_iff_getElem?.mp hi'
    have hq : firstIn s i' = firstOf ends k := of_decide_eq_true hq
    have hjk := hinj j k (List.getElem?_eq_some_iff.mp hj).1 (List.getElem?_eq_some_iff.mp hk).1
      ((hfirst j i' hj).symm.trans hq)
    subst hjk
    rw [hq, Option.some.inj (hj.symm.trans hk)]
    rfl

/-- The block that starts at an address, by the last addresses of all. -/
def BlockStarts (ends : List Int) (blocks : List NodeId) (a : Int) (i : NodeId) : Prop :=
  ∃ k, blocks[k]? = some i ∧ firstOf ends k = a

/-- The last address of the statements of a block. -/
def stopOf (code : List Instruction) (ends : List Int) (k : Nat) : Int :=
  if k + 1 = ends.length then lastOf ends k else lastOf ends k - folded code (lastOf ends k)

/-- The first `k` blocks have their exits. -/
structure Exiting (p : Prototype) (valid : Prop) (ends : List Int) (blocks : List NodeId)
    (base : Store) (k : Nat) (exit : Nat → NodeId) (s : Store) : Prop where
  framed : Framed s blocks (blockAt ends (targetsBefore p.instructions ends k) exit)
  alters : Alters (· ∈ blocks) base s
  fresh : ∀ j < k, base.cells.size ≤ (exit j).index
  order : ∀ i j, i < j → j < k → (exit i).index < (exit j).index
  shown : ∀ j < k, ∃ n,
    s.cell (exit j) = ⟨n, some (lastOf ends j - folded p.instructions (lastOf ends j) + 1), false⟩ ∧
    Leads (BlockStarts ends blocks) (wayFrom p.instructions (lastOf ends j)) n ∧
    (valid → ExitParts s n)

variable {base : Store} {exit : Nat → NodeId}

theorem Exiting.inside (h : Exiting p valid ends blocks base k exit w.store) {j : Nat} (hj : j < k) :
    (exit j).index < w.store.cells.size := by
  obtain ⟨n, hcell, hleads, -⟩ := h.shown j hj
  exact inside_of_node (by rw [Store.node, hcell]; exact hleads.outer.1)

theorem Exiting.step {address : Int} {w' : Work Unit} (h : Exiting p valid ends blocks base k exit w.store)
    (hb : ∀ i ∈ blocks, i.index < base.cells.size)
    (he : Exited blocks (blockAt ends (targetsBefore p.instructions ends k) exit) valid k
      (wayFrom p.instructions (lastOf ends k)) address w e w')
    (ha : address = lastOf ends k - folded p.instructions (lastOf ends k) + 1) :
    Exiting p valid ends blocks base (k + 1) (fun j => if j = k then e else exit j) w'.store := by
  subst ha
  have hsize := h.alters.size
  have hkeep : Keeps w.store w'.store := h.framed.keeps he.alters
  have hold : ∀ j < k, w'.store.cell (exit j) = w.store.cell (exit j) := by
    intro j hj
    refine he.alters.cell _ (h.inside hj) fun hm => ?_
    have := h.fresh j hj
    have := hb _ hm
    omega
  refine ⟨fun j i hj => ?_, h.alters.trans he.alters, fun j hj => ?_, fun i j hij hj => ?_,
    fun j hj => ?_⟩
  · rw [he.framed j i hj]
    have htargets : targetsBefore p.instructions ends (k + 1) =
        targetsBefore p.instructions ends k ++ (wayFrom p.instructions (lastOf ends k)).targets := by
      simp [targetsBefore, List.range_succ]
    rw [htargets]
    by_cases hjk : j = k <;> simp [hjk, enter_blockAt] <;> simp [blockAt, hjk]
  · by_cases hjk : j = k
    · have := he.fresh
      simp only [hjk, if_true]
      omega
    · simp only [hjk, if_false]
      exact h.fresh j (by omega)
  · have hik : i ≠ k := by omega
    by_cases hjk : j = k
    · have := he.fresh
      have := h.inside (j := i) (by omega)
      simp only [hik, hjk, if_true, if_false]
      omega
    · simp only [hik, hjk, if_false]
      exact h.order i j hij (by omega)
  · by_cases hjk : j = k
    · subst hjk
      simp only [if_true]
      exact he.shown
    · simp only [hjk, if_false]
      obtain ⟨n, hcell, hleads, hparts⟩ := h.shown j (by omega)
      exact ⟨n, (hold j (by omega)).trans hcell, hleads,
        fun hv => (hparts hv).keep hkeep he.alters.size⟩

/-- What the blocks and exits of a function are in the store: block `k` has exit `exit k`, and the
last block ends the function. -/
structure BlockGraph (p : Prototype) (valid : Prop) (ends : List Int) (blocks : List NodeId)
    (base : Store) (exit : Nat → NodeId) (s : Store) : Prop where
  blockEnds : BlockEnds p.instructions ends
  length : blocks.length = ends.length
  nodup : blocks.Nodup
  grows : Grows base s
  freshBlock : ∀ i ∈ blocks, base.cells.size ≤ i.index
  framed : Framed s blocks
    (blockAt ends (targetsBefore p.instructions ends (ends.length - 1)) exit)
  freshExit : ∀ j < ends.length, base.cells.size ≤ (exit j).index
  order : ∀ i j, i < j → j < ends.length → (exit i).index < (exit j).index
  shown : ∀ j, j + 1 < ends.length → ∃ n,
    s.cell (exit j) = ⟨n, some (stopOf p.instructions ends j + 1), false⟩ ∧
    Leads (BlockStarts ends blocks) (wayFrom p.instructions (lastOf ends j)) n ∧
    (valid → ExitParts s n)
  final : s.cell (exit (ends.length - 1)) =
    ⟨.stop .absent, some ((p.instructions.length : Int) - 1), false⟩

theorem Exiting.finish {m : Nat} {first : Store} (h : Exiting p valid ends blocks base m exit s)
    (hends : BlockEnds p.instructions ends) (hlen : blocks.length = ends.length) (hn : blocks.Nodup)
    (hfresh : ∀ i ∈ blocks, first.cells.size ≤ i.index) (hg : Grows first base)
    (hb : ∀ i ∈ blocks, i.index < base.cells.size) (hm : ends.length = m + 1)
    (hf : Framed s' blocks (blockAt ends (targetsBefore p.instructions ends m)
      fun j => if j = m then e else exit j))
    (ha : Alters (· ∈ blocks) s s') (he : s.cells.size ≤ e.index)
    (hcell : s'.cell e = ⟨.stop .absent, some (lastOf ends m), false⟩) :
    BlockGraph p valid ends blocks first (fun j => if j = m then e else exit j) s' := by
  have hsize := h.alters.size
  have hbase := hg.size
  have hkeep := h.framed.keeps ha
  have hinside : ∀ j < m, (exit j).index < s.cells.size := fun j hj => by
    obtain ⟨n, hcell, hleads, -⟩ := h.shown j hj
    exact inside_of_node (by rw [Store.node, hcell]; exact hleads.outer.1)
  have hall := h.alters.trans ha
  refine ⟨hends, hlen, hn, ⟨by have := ha.size; omega, fun i hi => ?_⟩, hfresh, ?_, fun j hj => ?_,
    fun i j hij hj => ?_, fun j hj => ?_, ?_⟩
  · rw [hall.cell i (by omega) fun hm => absurd (hfresh i hm) (by omega), hg.cell i hi]
  · rw [hm]
    exact hf
  · by_cases hjm : j = m
    · simp only [hjm, if_true]
      omega
    · have := h.fresh j (by omega)
      simp only [hjm, if_false]
      omega
  · have him : i ≠ m := by omega
    by_cases hjm : j = m
    · have := hinside i (by omega)
      simp only [him, hjm, if_true, if_false]
      omega
    · simp only [him, hjm, if_false]
      exact h.order i j hij (by omega)
  · have hjm : j < m := by omega
    have hne : j ≠ m := by omega
    obtain ⟨n, hc, hleads, hparts⟩ := h.shown j hjm
    simp only [hne, if_false]
    refine ⟨n, ?_, hleads, fun hv => (hparts hv).keep hkeep ha.size⟩
    rw [ha.cell _ (hinside j hjm) ?_, hc, stopOf, if_neg (by omega)]
    intro hmem
    have := hb _ hmem
    have := h.fresh j hjm
    omega
  · rw [hm, Nat.add_sub_cancel]
    simp only [if_true]
    rw [hcell, hends.lastOf_final hm.symm]

/-- The exits of all blocks are set, and the last block ends the function. -/
theorem succeeds_setExits {w0 : Work Unit} (hbr : Branching p.instructions)
    (hc : IteratorsCalled p.instructions) (hl : ∀ i ∈ p.instructions.drop 1, Legible p i)
    (hs : valid → ∀ i ∈ p.instructions.drop 1, slotsFit i = true)
    (he : BlockEnds p.instructions ends) (hlen : blocks.length = ends.length)
    (hn : blocks.Nodup) (hfresh : ∀ i ∈ blocks, w0.store.cells.size ≤ i.index)
    (hg : Grows w0.store w.store) (hf : Framed w.store blocks (blockAt ends [] fun _ => .absent)) :
    Succeeds (setExits p blocks) w fun stops w' =>
      stops = (List.range ends.length).map (stopOf p.instructions ends) ∧
      ∃ exit, BlockGraph p valid ends blocks w0.store exit w'.store := by
  have hpos := he.pos
  have hstart := indexed_starts he hn hlen hf
  refine ((returns_starts hf).succeeds ?_).bind
  have hfinal : blocks[ends.length - 1]? = some (blocks.get ⟨ends.length - 1, by omega⟩) :=
    List.getElem?_eq_getElem (by omega)
  rw [List.getLast?_eq_getElem?, hlen, hfinal]
  generalize blocks.get ⟨ends.length - 1, by omega⟩ = final at hfinal
  have hexits : Succeeds (blocks.dropLast.mapM
      (setExit p (blocks.map fun i => (firstIn w.store i, i)).reverse)) w fun stops w' =>
      stops.length = blocks.dropLast.length ∧
      stops = (List.range stops.length).map (stopOf p.instructions ends) ∧
      ∃ exit, Exiting p valid ends blocks w.store stops.length exit w'.store := by
    refine Succeeds.mapM _ ⟨rfl, fun _ => .absent, hf, .refl _ _, ?_, ?_, ?_⟩ ?_
    · intro j hj
      cases hj
    · intro i j _ hj
      cases hj
    · intro j hj
      cases hj
    · rintro stops i v hi ⟨hstops, exit, hv⟩
      have hk : stops.length + 1 < ends.length := by
        have := (List.getElem?_eq_some_iff.mp hi).1
        rw [List.length_dropLast] at this
        omega
      have hi' : blocks[stops.length]? = some i := by
        rw [List.getElem?_dropLast, if_pos (by omega)] at hi
        exact hi
      have hstaged : Staged p valid ends (blocks.map fun i => (firstIn w.store i, i)).reverse blocks
          (blockAt ends (targetsBefore p.instructions ends stops.length) exit) :=
        ⟨hbr, hc, hl, hs, he, hlen, ⟨hn, hstart.find, hstart.inj⟩, fun _ => rfl⟩
      refine (hstaged.succeeds_setExit hv.framed rfl hk hi').mono fun stop w' ⟨hstop, e, hx⟩ => ?_
      rw [List.length_append, List.length_singleton]
      refine ⟨?_, _, hv.step (fun i hi => hf.inside hi) hx (by rw [hstop])⟩
      rw [List.range_succ, List.map_append, ← hstops, List.map_singleton, stopOf, if_neg (by omega),
        hstop]
  refine hexits.next fun stops w1 ⟨hlength, hstops, exit, hx⟩ => ?_
  obtain ⟨m, hm⟩ : ∃ m, ends.length = m + 1 := ⟨ends.length - 1, by omega⟩
  rw [List.length_dropLast, hlen, hm, Nat.add_sub_cancel] at hlength
  rw [hlength] at hstops hx
  rw [hm, Nat.add_sub_cancel] at hfinal
  refine (succeeds_block (hx.framed.node hfinal) ?_).bind
  have hpush := grows_push w1.store ⟨.stop .absent, some (lastOf ends m), false⟩
  have hf1 := hx.framed.grow hpush
  refine (succeeds_modifyBlock (hf1.node hfinal) (.pure ⟨?_, ?_⟩)).bind
  · rw [hm, List.range_succ, List.map_append, ← hstops, List.map_singleton, stopOf, if_pos hm.symm]
    rfl
  · have hset := hf1.set (g := blockAt ends (targetsBefore p.instructions ends m)
      fun j => if j = m then ⟨w1.store.cells.size⟩ else exit j) hn hfinal
      fun j _ hj => by simp [blockAt, hj]
    have hne : (⟨w1.store.cells.size⟩ : NodeId) ≠ final := by
      rintro rfl
      exact absurd (hx.framed.inside (List.mem_of_getElem? hfinal)) (Nat.lt_irrefl _)
    refine ⟨fun j => if j = m then ⟨w1.store.cells.size⟩ else exit j,
      hx.finish he hlen hn hfresh hg (fun i hi => hf.inside hi) hm ?_
        (hpush.alters.trans (alters_setNode (List.mem_of_getElem? hfinal))) (Nat.le_refl _)
        ((cell_setNode_of_ne hne).trans cell_push_self)⟩
    simpa [blockAt] using hset

/-! ## The flow graph -/

theorem folded_inside (hbr : Branching p.instructions) (hc : IteratorsCalled p.instructions)
    (he : BlockEnds p.instructions ends) (hk : k < ends.length) :
    0 ≤ folded p.instructions (lastOf ends k) ∧ folded p.instructions (lastOf ends k) ≤ 2 ∧
      firstOf ends k ≤ lastOf ends k - folded p.instructions (lastOf ends k) + 1 := by
  have hle := he.firstOf_le_lastOf hk
  have hpair : ∀ o, opAt p.instructions (lastOf ends k - 1) = some o →
      isTest o = true ∨ isIterator o = true → firstOf ends k < lastOf ends k := by
    intro o ho hkind
    refine he.joined hk rfl ho ?_
    rcases hkind with ht | hi
    · obtain ⟨hb, hl⟩ := isTest_plain ht
      exact not_endsBlock ho hb hl (hbr.test.at ho ht).2
    · obtain ⟨hb, hl⟩ := isIterator_plain hi
      exact not_endsBlock ho hb hl (hbr.iterator.at ho hi).2
  have htwo : (opAt p.instructions (lastOf ends k - 1)).any isTest = true ∨
      (opAt p.instructions (lastOf ends k - 1)).any isIterator = true →
      firstOf ends k < lastOf ends k := by
    rintro (h | h)
    · obtain ⟨o, ho, ht⟩ := (Option.any_eq_true ..).mp h
      exact hpair o ho (.inl ht)
    · obtain ⟨o, ho, hi⟩ := (Option.any_eq_true ..).mp h
      exact hpair o ho (.inr hi)
  have hiter : ∀ o, opAt p.instructions (lastOf ends k) = some o → isIteratorEnd o = true →
      firstOf ends k < lastOf ends k := fun o ho hi => htwo (.inr (hc.at ho hi))
  unfold folded
  split
  case h_1 | h_2 | h_3 =>
    split
    · rename_i ht
      have := htwo (.inl ht)
      omega
    · omega
  case h_4 ho | h_5 ho | h_6 ho =>
    have := hiter _ ho rfl
    omega
  all_goals omega

theorem stopOf_inside (hbr : Branching p.instructions) (hc : IteratorsCalled p.instructions)
    (he : BlockEnds p.instructions ends) (hk : k < ends.length) :
    firstOf ends k ≤ stopOf p.instructions ends k + 1 ∧ stopOf p.instructions ends k ≤ lastOf ends k ∧
      lastOf ends k ≤ stopOf p.instructions ends k + 2 := by
  obtain ⟨h0, h2, hin⟩ := folded_inside hbr hc he hk
  unfold stopOf
  split <;> omega

/-- The blocks that an exit names. -/
def exitTargets : Node → List NodeId
  | .jump _ t _ => [t]
  | .test _ t f _ => [t, f]
  | .iterate _ _ b o | .count _ _ b o => [b, o]
  | _ => []

/-- Blocks `bs` with their exits are the control flow of some code; `stops` are the last addresses
of their statements, and the instructions behind these belong to the exits. -/
structure FlowGraph (code : List Instruction) (s : Store) (blocks : List NodeId) (bs : List Block)
    (stops : List Int) : Prop where
  nodes : blocks.map s.node = bs.map .block
  distinct : blocks.Nodup
  stopped : stops.length = bs.length
  index (k : Nat) (b : Block) : bs[k]? = some b → b.index = k
  ordered : ∀ b ∈ bs, b.first ≤ b.last
  tiles : bs.flatMap (fun b => addresses b.first b.last) = addresses 1 ((code.length : Int) - 1)
  body (k : Nat) (b : Block) (stop : Int) : bs[k]? = some b → stops[k]? = some stop →
    b.first ≤ stop + 1 ∧ stop ≤ b.last ∧ b.last ≤ stop + 2
  folds (k : Nat) (b : Block) (stop : Int) : bs[k]? = some b → stops[k]? = some stop →
    stop = if k + 1 = bs.length then b.last else b.last - folded code b.last
  exits (k : Nat) (b : Block) : k + 1 < bs.length → bs[k]? = some b →
    Leads (fun a i => ∃ (j : Nat) (b' : Block), blocks[j]? = some i ∧ bs[j]? = some b' ∧ b'.first = a)
      (wayFrom code b.last) (s.node b.exit)
  final (b : Block) : bs.getLast? = some b → s.node b.exit = .stop .absent
  entries (k : Nat) (b : Block) (i : NodeId) : k ≠ 0 → bs[k]? = some b → blocks[k]? = some i →
    b.entries = ((bs.dropLast.flatMap fun b => exitTargets (s.node b.exit)).count i : Nat)

/-- An exit names a block as often as its way has the address at which the block starts. -/
theorem Leads.count_eq (h : Leads at_ way n) (hi : ∀ b t, at_ b t → (t = i ↔ b = a)) :
    (exitTargets n).count i = way.targets.count a := by
  have hone : ∀ {b t}, at_ b t → (t == i) = (b == a) := fun hb => by
    rw [Bool.eq_iff_iff, beq_iff_eq, beq_iff_eq]
    exact hi _ _ hb
  cases h with
  | flow ha => simp [exitTargets, Way.targets, List.count_cons, hone ha]
  | jump ha => simp [exitTargets, Way.targets, List.count_cons, hone ha]
  | test ha hb => simp [exitTargets, Way.targets, List.count_cons, hone ha, hone hb]
  | iterate ha hb => simp [exitTargets, Way.targets, List.count_cons, hone ha, hone hb]
  | count ha hb => simp [exitTargets, Way.targets, List.count_cons, hone ha, hone hb]

theorem BlockStarts.eq_iff (he : BlockEnds code ends) (hn : blocks.Nodup)
    (hlen : blocks.length = ends.length) {t : NodeId} (hi : blocks[k]? = some i)
    (h : BlockStarts ends blocks a t) : t = i ↔ a = firstOf ends k := by
  obtain ⟨j, hj, rfl⟩ := h
  have hkl := (List.getElem?_eq_some_iff.mp hi).1
  have hjl := (List.getElem?_eq_some_iff.mp hj).1
  constructor
  · rintro rfl
    rw [(List.getElem?_inj hjl hn).mp (hj.trans hi.symm)]
  · intro h
    obtain rfl : j = k := he.firstOf_inj (by omega) (by omega) h
    exact Option.some.inj (hj.symm.trans hi)

/-- The blocks of the graph, in their order. -/
def blocksOf (code : List Instruction) (ends : List Int) (exit : Nat → NodeId) : List Block :=
  (List.range ends.length).map (blockAt ends (targetsBefore code ends (ends.length - 1)) exit)

theorem length_blocksOf : (blocksOf code ends exit).length = ends.length := by simp [blocksOf]

theorem blocksOf_getElem? {b : Block} : (blocksOf code ends exit)[k]? = some b ↔
    k < ends.length ∧ b = blockAt ends (targetsBefore code ends (ends.length - 1)) exit k := by
  rw [blocksOf, List.getElem?_map]
  by_cases hk : k < ends.length
  · simp [hk, eq_comm]
  · simp [hk]

theorem blocksOf_tile (he : BlockEnds code ends) :
    (blocksOf code ends exit).flatMap (fun b => addresses b.first b.last) =
      addresses 1 ((code.length : Int) - 1) := by
  have hranges : ranges 0 ends = (blocksOf code ends exit).map fun b => (b.first, b.last) := by
    refine List.ext_getElem? fun k => ?_
    by_cases hk : k < ends.length
    · rw [ranges_getElem? hk, List.getElem?_map, blocksOf_getElem?.mpr ⟨hk, rfl⟩]
      rfl
    · rw [List.getElem?_eq_none (by simp [ranges_eq]; omega),
        List.getElem?_eq_none (by simp [length_blocksOf]; omega)]
  have htile := ranges_tile he.ascending he.final
  rwa [hranges, List.flatMap_map] at htile

theorem BlockGraph.count_eq (h : BlockGraph p valid ends blocks base exit s) (hi : blocks[k]? = some i) :
    ((blocksOf p.instructions ends exit).dropLast.flatMap
      fun b => exitTargets (s.node b.exit)).count i =
      (targetsBefore p.instructions ends (ends.length - 1)).count (firstOf ends k) := by
  have hdrop : (blocksOf p.instructions ends exit).dropLast = (List.range (ends.length - 1)).map
      (blockAt ends (targetsBefore p.instructions ends (ends.length - 1)) exit) := by
    rw [blocksOf, ← List.map_dropLast, List.dropLast_eq_take, List.length_range, List.take_range,
      Nat.min_eq_left (Nat.sub_le ..)]
  rw [hdrop, List.flatMap_map, targetsBefore, List.count_flatMap, List.count_flatMap]
  congr 1
  refine List.map_congr_left fun j hj => ?_
  rw [List.mem_range] at hj
  obtain ⟨n, hcell, hleads, -⟩ := h.shown j (by omega)
  have hnode : s.node (exit j) = n := by rw [Store.node, hcell]
  simp only [Function.comp_apply, blockAt, hnode]
  exact hleads.count_eq fun a t hat => hat.eq_iff h.blockEnds h.nodup h.length hi

theorem BlockGraph.flowGraph (h : BlockGraph p valid ends blocks base exit s)
    (hbr : Branching p.instructions) (hc : IteratorsCalled p.instructions) :
    FlowGraph p.instructions s blocks (blocksOf p.instructions ends exit)
      ((List.range ends.length).map (stopOf p.instructions ends)) := by
  have hstop : ∀ {k : Nat} {stop : Int}, k < ends.length →
      ((List.range ends.length).map (stopOf p.instructions ends))[k]? = some stop →
      stopOf p.instructions ends k = stop := by
    intro k stop hk hs
    rw [List.getElem?_map, List.getElem?_range hk] at hs
    exact Option.some.inj hs
  refine ⟨?_, h.nodup, by simp [length_blocksOf], fun k b hb => ?_, fun b hb => ?_,
    blocksOf_tile h.blockEnds, fun k b stop hb hs => ?_, fun k b stop hb hs => ?_,
    fun k b hk hb => ?_, fun b hb => ?_, fun k b i _ hb hi => ?_⟩
  · refine List.ext_getElem? fun k => ?_
    rw [List.getElem?_map, List.getElem?_map]
    by_cases hk : k < ends.length
    · have hi : blocks[k]? = some (blocks.get ⟨k, by have := h.length; omega⟩) :=
        List.getElem?_eq_getElem _
      rw [hi, blocksOf_getElem?.mpr ⟨hk, rfl⟩, Option.map_some, Option.map_some, h.framed.node hi]
    · rw [List.getElem?_eq_none (by have := h.length; omega),
        List.getElem?_eq_none (by rw [length_blocksOf]; omega)]
      rfl
  · obtain ⟨-, rfl⟩ := blocksOf_getElem?.mp hb
    rfl
  · obtain ⟨k, hget⟩ := List.mem_iff_getElem?.mp hb
    obtain ⟨hk, rfl⟩ := blocksOf_getElem?.mp hget
    exact h.blockEnds.firstOf_le_lastOf hk
  · obtain ⟨hk, rfl⟩ := blocksOf_getElem?.mp hb
    rw [← hstop hk hs]
    exact stopOf_inside hbr hc h.blockEnds hk
  · obtain ⟨hk, rfl⟩ := blocksOf_getElem?.mp hb
    rw [← hstop hk hs, length_blocksOf]
    rfl
  · rw [length_blocksOf] at hk
    obtain ⟨-, rfl⟩ := blocksOf_getElem?.mp hb
    obtain ⟨n, hcell, hleads, -⟩ := h.shown k hk
    have hnode : s.node (exit k) = n := by rw [Store.node, hcell]
    refine hnode ▸ hleads.mono ?_
    rintro a i ⟨j, hj, ha⟩
    refine ⟨j, _, hj, blocksOf_getElem?.mpr ⟨?_, rfl⟩, ha⟩
    have := h.length
    have := (List.getElem?_eq_some_iff.mp hj).1
    omega
  · rw [List.getLast?_eq_getElem?, length_blocksOf] at hb
    obtain ⟨-, rfl⟩ := blocksOf_getElem?.mp hb
    exact congrArg Cell.node h.final
  · obtain ⟨hk, rfl⟩ := blocksOf_getElem?.mp hb
    rw [h.count_eq hi]
    rfl

/-- Of legible code in which the end of every iteration stands behind the call of its iterator, the
blocks are the control flow. -/
theorem blocks_follow_control_flow {p : Prototype}
    (hl : ∀ i ∈ p.instructions.drop 1, Legible p i) (hb : Branching p.instructions)
    (hc : IteratorsCalled p.instructions) (w : Work Unit) :
    Succeeds (do
      let blocks ← addBlocks p.instructions
      let stops ← setExits p blocks
      return (blocks, stops)) w fun r w' => ∃ bs, FlowGraph p.instructions w'.store r.1 bs r.2 := by
  refine (succeeds_addBlocks hb.toJumping).next fun blocks w1 ⟨hlen, hn, hfresh, hg, hf⟩ => ?_
  have hexits := succeeds_setExits hb hc hl False.elim
    (blockEnds_lastsOf hb.toJumping) hlen hn hfresh hg hf
  refine hexits.next fun stops w2 ⟨hstops, exit, hgraph⟩ => .pure
    ⟨blocksOf p.instructions (lastsOf p.instructions) exit, ?_⟩
  rw [hstops]
  exact hgraph.flowGraph hb hc

/-- A test, a block that closes over variables, a numeric loop and a loop over an iterator. -/
def testsAndLoops : Prototype := ofCode [
  withAD .kshort 0 1,
  withAD .islt 0 0, withAD .jmp 1 1, withAD .mov 1 0,
  withAD .uclo 0 0,
  withAD .fori 0 2, withAD .mov 4 0, withAD .forl 0 (-2),
  withAD .jmp 7 1, withAD .mov 7 4, withABC .iterc 4 3 3, withAD .iterl 4 (-3),
  withAD .ret0 0 1]

theorem blocks_of_testsAndLoops :
    (∀ i ∈ testsAndLoops.instructions.drop 1, Legible testsAndLoops i) ∧
    Branching testsAndLoops.instructions ∧ IteratorsCalled testsAndLoops.instructions ∧
    Succeeds (do
      let blocks ← addBlocks testsAndLoops.instructions
      let stops ← setExits testsAndLoops blocks
      return (blocks, stops)) ⟨{}, ()⟩ fun r w' =>
        ∃ bs, FlowGraph testsAndLoops.instructions w'.store r.1 bs r.2 :=
  ⟨by decide, by decide, by decide,
    blocks_follow_control_flow (by decide) (by decide) (by decide) ⟨{}, ()⟩⟩

/-- The end of a loop over an iterator, behind another instruction than the iterator's call. -/
def strayLoopEnd : Prototype := ofCode [
  withAD .jmp 0 0, withAD .mov 0 1, withAD .iterl 3 (-2), withAD .ret0 0 1]

/-- Where the end of an iteration does not stand behind the call of an iterator, there is no graph. -/
theorem no_blocks_of_strayLoopEnd :
    (∀ i ∈ strayLoopEnd.instructions.drop 1, Legible strayLoopEnd i) ∧
    Branching strayLoopEnd.instructions ∧
    ¬ Succeeds (do
      let blocks ← addBlocks strayLoopEnd.instructions
      let stops ← setExits strayLoopEnd blocks
      return (blocks, stops)) ⟨{}, ()⟩ fun r w' =>
        ∃ bs, FlowGraph strayLoopEnd.instructions w'.store r.1 bs r.2 := by
  refine ⟨by decide, by decide, ?_⟩
  rintro ⟨r, w', hr, -⟩
  cases hr

end LuaLift.Proofs
