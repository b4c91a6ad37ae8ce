import LuaLift.Proofs.FlowGraph
import LuaLift.Proofs.Statements
import LuaLift.Lift.Function

/-! # Functions as they are lifted

`Lifted s lo f` says what the tree of a well-formed function is: its blocks with their exits as
in `BlockGraph`, a statement for each address of their bodies, and functions in some of the
statements, again lifted. The nodes of `f` are numbered from `lo` to `f`, and each function inside
has a span of numbers of its own, so that a change to one function leaves the others alone. -/
namespace LuaLift.Proofs
open Bytecode Tree Pass Lift

variable {p : Prototype} {ends : List Int} {k : Nat} {a : Int} {w : Work Unit} {s s' : Store}

/-! ## Instructions inside blocks -/

variable {code : List Instruction} {o : Opcode} {r : Option NodeId} {valid : Prop}
  {fn : Store → Nat → NodeId → Prop} {w' : Work Unit}

theorem eq_iterl (h : isIteratorEnd o = true) (hc : isCompiled o = true) : o = .iterl := by
  cases o <;> simp_all [isIteratorEnd, isCompiled]

theorem eq_forl (h : isCountEnd o = true) (hc : isCompiled o = true) : o = .forl := by
  cases o <;> simp_all [isCountEnd, isCompiled]

theorem WellFormed.iteratorsCalled (h : WellFormed p) : IteratorsCalled p.instructions := by
  intro k hk o ho hend
  exact h.called k hk o ho (eq_iterl hend (h.compiled k hk o ho))

theorem WellFormed.branching (h : WellFormed p) : Branching p.instructions := by
  refine ⟨h.toJumping, fun k hk o ho hi => ?_, fun k hk o ho hi => ?_, fun k hk o ho hi => ?_⟩
  · obtain ⟨hnext, hfree, -⟩ := h.iterator k hk o ho hi
    exact ⟨by rw [hnext]; rfl, hfree⟩
  · obtain ⟨o', ho', hit⟩ := (Option.any_eq_true ..).mp (h.iteratorsCalled k hk o ho hi)
    obtain ⟨-, -, e, he, hleap, -, -, hback⟩ := h.iterator.at ho' hit
    rw [Int.sub_add_cancel] at hback
    exact ⟨e, he, hleap, hback⟩
  · obtain ⟨e, he, hfori, -, hback⟩ := h.count k hk o ho (eq_forl hi (h.compiled k hk o ho))
    exact ⟨e, he, by rw [hfori]; rfl, hback⟩

theorem isInBlock_of_isReturn (h : isReturn o = true) : isInBlock o = true := by
  cases o <;> first | rfl | cases h

theorem folded_pos (ho : opAt code a = some o) (hk : leavesBlock o = true) : 1 ≤ folded code a := by
  unfold folded
  rw [ho]
  cases o with
  | jmp | isnext => dsimp only; split <;> omega
  | fori | forl | iterl => dsimp only; omega
  | _ => cases hk

theorem endsBlock_of_leaves (h : Jumping code) (ho : opAt code a = some o) (hk : leavesBlock o = true) :
    EndsBlock code a := by
  cases o with
  | forl | iterl => exact ⟨a, _, ho, .inr ⟨rfl, rfl⟩⟩
  | jmp | isnext | fori =>
    obtain ⟨d, hd, -⟩ := h.destination ho rfl
    exact (endsBlock_of_branch ho rfl hd (by simp)).2
  | _ => cases hk

/-- At the addresses of statements no instruction stands that belongs to an exit. -/
theorem isInBlock_of_body (h : WellFormed p) (he : BlockEnds p.instructions ends) (hk : k < ends.length)
    (ho : opAt p.instructions a = some o) (hfirst : firstOf ends k ≤ a)
    (hstop : a ≤ stopOf p.instructions ends k) : isInBlock o = true := by
  have hlast : a ≤ lastOf ends k := by
    have := (stopOf_inside h.branching h.iteratorsCalled he hk).2.1
    omega
  -- The end of the function is a return.
  by_cases hfinal : a = (p.instructions.length : Int) - 1
  · obtain ⟨o', ho', hr⟩ := (Option.any_eq_true ..).mp h.final
    rw [hfinal] at ho
    exact isInBlock_of_isReturn (Option.some.inj (ho.symm.trans ho') ▸ hr)
  have hblock : a = lastOf ends k → k + 1 < ends.length := by
    intro ha
    have : k + 1 ≠ ends.length := fun hm => hfinal (ha.trans (he.lastOf_final hm))
    omega
  -- Where an instruction ends a block, the instructions of its exit come behind the body.
  have hends : EndsBlock p.instructions a → folded p.instructions a ≤ 0 := by
    intro hend
    have ha := he.eq_lastOf hk hend hfirst hlast
    rw [stopOf, if_neg (by omega), ← ha] at hstop
    omega
  have hcompiled : isCompiled o = true := h.compiled.at ho
  -- A pair of instructions that belong to an exit.
  have hpair : ∀ o', opAt p.instructions (a + 1) = some o' → ¬ Targeted p.instructions (a + 1) →
      isBranch o = false → isLoopEnd o = false → EndsBlock p.instructions (a + 1) →
      folded p.instructions (a + 1) = 2 → False := by
    intro o' ho' hfree hb hl hend h2
    have hne : a ≠ lastOf ends k := fun ha =>
      not_endsBlock ho hb hl hfree (ha ▸ he.endsBlock (hblock ha))
    have ha := he.eq_lastOf hk hend (by omega) (by omega)
    have hm : k + 1 ≠ ends.length := by
      intro hm
      rw [he.lastOf_final hm] at ha
      exact absurd (hend.inside h.toJumping) (by omega)
    rw [stopOf, if_neg hm, ← ha, h2] at hstop
    omega
  have hleave : leavesBlock o = false := by
    refine Bool.eq_false_iff.mpr fun hk' => ?_
    have := hends (endsBlock_of_leaves h.toJumping ho hk')
    have := folded_pos ho hk'
    omega
  have htest : isTest o = false := by
    refine Bool.eq_false_iff.mpr fun ht => ?_
    obtain ⟨hnext, hfree⟩ := h.test.at ho ht
    obtain ⟨hb, hl⟩ := isTest_plain ht
    refine hpair _ hnext hfree hb hl (endsBlock_of_leaves h.toJumping hnext rfl) ?_
    have hany : (opAt p.instructions a).any isTest = true := by rw [ho]; exact ht
    simp [folded, hnext, hany]
  have hiter : isIterator o = false := by
    refine Bool.eq_false_iff.mpr fun hi => ?_
    obtain ⟨hnext, hfree, -⟩ := h.iterator.at ho hi
    obtain ⟨hb, hl⟩ := isIterator_plain hi
    refine hpair _ hnext hfree hb hl (endsBlock_of_leaves h.toJumping hnext rfl) ?_
    simp [folded, hnext]
  simp [isInBlock, hcompiled, htest, hiter, hleave]

/-! ## The nodes of a function -/

/-- The statements of a function by address: how they stand in the store. All are numbered from
`mid` on, in the order of their addresses. -/
structure Lines (s : Store) (mid : Nat) (line : Int → Option NodeId) : Prop where
  order : ∀ {a b i j}, line a = some i → line b = some j → a < b → i.index < j.index
  inside : ∀ {a i}, line a = some i → mid ≤ i.index ∧ i.index < s.cells.size
  address : ∀ {a i}, line a = some i → (s.cell i).address = some a
  content : ∀ {a i}, line a = some i → Content s i ∨ ∃ g, Closure s i g

/-- The nodes of a function. -/
structure Frame where
  p : Prototype
  /-- the last addresses of the blocks -/
  ends : List Int
  blocks : List NodeId
  exit : Nat → NodeId
  /-- the statement of an address -/
  line : Int → Option NodeId
  /-- the list of the blocks -/
  list : NodeId
  /-- a number above those of the blocks and the exits -/
  mid : Nat

/-- The statements of a block. -/
def bodyOf (code : List Instruction) (ends : List Int) (line : Int → Option NodeId) (k : Nat) :
    List NodeId :=
  (addresses (firstOf ends k) (stopOf code ends k)).filterMap line

/-- A block as lifting leaves it. -/
def Frame.block (F : Frame) (k : Nat) (entries : Int) : Block :=
  { index := k, exit := F.exit k, contents := bodyOf F.p.instructions F.ends F.line k
    first := firstOf F.ends k, last := lastOf F.ends k, entries }

/-- The blocks of a function with their exits and statements. -/
structure Bodies (s : Store) (lo : Nat) (F : Frame) : Prop where
  wellFormed : WellFormed F.p
  blockEnds : BlockEnds F.p.instructions F.ends
  length : F.blocks.length = F.ends.length
  nodup : F.blocks.Nodup
  block : ∀ k i, F.blocks[k]? = some i → ∃ e, s.cell i = ⟨.block (F.block k e), none, false⟩
  blockInside : ∀ i ∈ F.blocks, lo ≤ i.index ∧ i.index < F.mid
  exitInside : ∀ k < F.ends.length, lo ≤ (F.exit k).index ∧ (F.exit k).index < F.mid
  exitOrder : ∀ j k, j < k → k < F.ends.length → (F.exit j).index < (F.exit k).index
  shown : ∀ k, k + 1 < F.ends.length → ∃ n,
    s.cell (F.exit k) = ⟨n, some (stopOf F.p.instructions F.ends k + 1), false⟩ ∧
    Leads (BlockStarts F.ends F.blocks) (wayFrom F.p.instructions (lastOf F.ends k)) n ∧
    ExitParts s n
  final : s.cell (F.exit (F.ends.length - 1)) =
    ⟨.stop .absent, some ((F.p.instructions.length : Int) - 1), false⟩
  lines : Lines s F.mid F.line
  inBody : ∀ {a i}, F.line a = some i →
    ∃ k < F.ends.length, firstOf F.ends k ≤ a ∧ a ≤ stopOf F.p.instructions F.ends k

/-- A function as lifting leaves it, apart from the functions inside. -/
structure Laid (s : Store) (lo : Nat) (f : NodeId) (F : Frame) : Prop extends Bodies s lo F where
  function : ∃ as, s.cell f =
    ⟨.function as F.list ⟨some F.p.debug, F.p.instructions.length⟩, none, false⟩ ∧
    Has s (Node.isList .identifiers) as
  list : s.cell F.list = ⟨.list .statements F.blocks, none, false⟩
  above : F.mid ≤ F.list.index
  below : F.list.index < f.index
  lineBelow : ∀ {a i}, F.line a = some i → i.index < F.list.index

/-- The function `g` in the statement of an address has the span from `lo` to `g`, which lies
between the statement before and its own. -/
structure Apart (mid : Nat) (line : Int → Option NodeId) (a : Int) (i : NodeId) (lo : Nat)
    (g : NodeId) : Prop where
  above : mid ≤ lo
  le : lo ≤ g.index
  lt : g.index < i.index
  behind : ∀ {b j}, line b = some j → b < a → j.index < lo

/-- The tree of a function, with the functions inside. -/
inductive Lifted (s : Store) : Nat → NodeId → Prop
  | tree {lo f} (F : Frame) (start : ∀ {a i g}, F.line a = some i → Closure s i g → Nat)
      (laid : Laid s lo f F)
      (apart : ∀ {a i g} (h : F.line a = some i) (hc : Closure s i g),
        Apart F.mid F.line a i (start h hc) g)
      (sub : ∀ {a i g} (h : F.line a = some i) (hc : Closure s i g), Lifted s (start h hc) g) :
      Lifted s lo f

variable {lo mid : Nat} {f : NodeId} {F : Frame} {line : Int → Option NodeId}

theorem Bodies.mid_pos (h : Bodies s lo F) : lo < F.mid := by
  have := h.exitInside 0 h.blockEnds.pos
  omega

/-! ## Changes outside of a function -/

section
variable (h : Lines s mid line) (hk : Keeps s s') (hsize : s.cells.size ≤ s'.cells.size)
  (hsame : ∀ {a i}, line a = some i → s'.cell i = s.cell i)
  (hg : ∀ {a i g}, line a = some i → Closure s i g → s'.cell g = s.cell g)
include h hk hsize hsame hg

theorem Lines.keep : Lines s' mid line := by
  refine ⟨h.order, fun ha => ⟨(h.inside ha).1, Nat.lt_of_lt_of_le (h.inside ha).2 hsize⟩,
    fun ha => by rw [hsame ha, h.address ha], fun ha => ?_⟩
  rcases h.content ha with hc | ⟨g, hc⟩
  · refine .inl (hc.keep hk hsize fun vs hv => ?_)
    rwa [Store.node, hsame ha]
  · exact .inr ⟨g, hc.keep hk hsize (hg ha hc)⟩

theorem Lines.closure_of_keep {i g : NodeId} (ha : line a = some i) (hc : Closure s' i g) :
    Closure s i g := by
  rcases h.content ha with hcontent | ⟨g', hc'⟩
  · refine absurd hc (Content.not_closure (hcontent.keep hk hsize fun vs hv => ?_))
    rwa [Store.node, hsame ha]
  · obtain rfl := hc.unique (hc'.keep hk hsize (hg ha hc'))
    exact hc'

end

theorem Bodies.keep (h : Bodies s lo F) (hk : Keeps s s') (hsize : s.cells.size ≤ s'.cells.size)
    (hsame : ∀ j : NodeId, lo ≤ j.index → j.index < F.mid → s'.cell j = s.cell j)
    (hlines : Lines s' F.mid F.line) : Bodies s' lo F := by
  have hexit : ∀ k < F.ends.length, s'.cell (F.exit k) = s.cell (F.exit k) := fun k hlt =>
    hsame _ (h.exitInside k hlt).1 (h.exitInside k hlt).2
  refine { h with block := ?_, shown := ?_, final := ?_, lines := hlines }
  · intro k i hi
    have hin := h.blockInside i (List.mem_of_getElem? hi)
    rw [hsame i hin.1 hin.2]
    exact h.block k i hi
  · intro k hlt
    obtain ⟨n, hn, hleads, hparts⟩ := h.shown k hlt
    exact ⟨n, by rw [hexit k (by omega), hn], hleads, hparts.keep hk hsize⟩
  · rw [hexit _ (by have := h.blockEnds.pos; omega), h.final]

/-- A function is what it was if its span and all inner nodes are unchanged. -/
theorem Lifted.keep (h : Lifted s lo f) (hk : Keeps s s') (hsize : s.cells.size ≤ s'.cells.size)
    (hsame : ∀ j : NodeId, lo ≤ j.index → j.index ≤ f.index → s'.cell j = s.cell j) :
    Lifted s' lo f := by
  induction h with
  | @tree lo f F start laid apart sub ih =>
    have hmid := laid.mid_pos
    have habove := laid.above
    have hbelow := laid.below
    have hline : ∀ {a i}, F.line a = some i → s'.cell i = s.cell i := fun ha =>
      hsame _ (by have := (laid.lines.inside ha).1; omega) (by have := laid.lineBelow ha; omega)
    have hclosure : ∀ {a i g}, F.line a = some i → Closure s i g → s'.cell g = s.cell g := by
      intro a i g ha hc
      have hab := apart ha hc
      have := hab.above
      have := hab.le
      have := hab.lt
      have := laid.lineBelow ha
      exact hsame _ (by omega) (by omega)
    have hback : ∀ {a i g}, F.line a = some i → Closure s' i g → Closure s i g :=
      fun ha hc => laid.lines.closure_of_keep hk hsize hline hclosure ha hc
    have hlaid : Laid s' lo f F := by
      refine { laid with
        toBodies := laid.toBodies.keep hk hsize (fun j hj hj' => hsame j hj (by omega))
          (laid.lines.keep hk hsize hline hclosure)
        function := ?_, list := ?_ }
      · obtain ⟨as, hf, has⟩ := laid.function
        exact ⟨as, by rw [hsame f (by omega) (Nat.le_refl _), hf], has.keep hk hsize⟩
      · rw [hsame F.list (by omega) (by omega), laid.list]
    refine .tree F (fun ha hc => start ha (hback ha hc)) hlaid
      (fun ha hc => apart ha (hback ha hc)) fun ha hc => ih ha (hback ha hc) fun j hj hj' => ?_
    have hab := apart ha (hback ha hc)
    have := hab.above
    have := hab.lt
    have := laid.lineBelow ha
    exact hsame j (by omega) (by omega)

theorem Bodies.weaken {lo' : Nat} (h : Bodies s lo F) (hl : lo' ≤ lo) : Bodies s lo' F :=
  { h with
    blockInside := fun i hi => ⟨Nat.le_trans hl (h.blockInside i hi).1, (h.blockInside i hi).2⟩
    exitInside := fun k hk => ⟨Nat.le_trans hl (h.exitInside k hk).1, (h.exitInside k hk).2⟩ }

theorem Lifted.grow (h : Lifted s lo f) (hg : Grows s s') : Lifted s' lo f := by
  refine h.keep hg.keeps hg.size fun j _ hj => hg.cell j ?_
  cases h with
  | tree F start laid apart sub =>
    obtain ⟨as, hf, -⟩ := laid.function
    have : f.index < s.cells.size := inside_of_node (by rw [Store.node, hf]; simp)
    omega

/-! ## Statements from address to address -/

/-- The statements of the addresses below a bound are there, with the functions in them. -/
structure Lined (s : Store) (code : List Instruction) (ends : List Int) (mid : Nat)
    (line : Int → Option NodeId) (bound : Int) : Prop where
  lines : Lines s mid line
  below : ∀ {a i}, line a = some i → a < bound
  inBody : ∀ {a i}, line a = some i →
    ∃ k < ends.length, firstOf ends k ≤ a ∧ a ≤ stopOf code ends k
  spans : ∀ {a i g}, line a = some i → Closure s i g →
    ∃ lo, Apart mid line a i lo g ∧ Lifted s lo g

variable {code : List Instruction} {bound : Int}

theorem Lined.keep (h : Lined s code ends mid line bound) (hk : Keeps s s')
    (hsize : s.cells.size ≤ s'.cells.size)
    (hsame : ∀ j : NodeId, mid ≤ j.index → j.index < s.cells.size → s'.cell j = s.cell j) :
    Lined s' code ends mid line bound := by
  have hline : ∀ {a i}, line a = some i → s'.cell i = s.cell i :=
    fun ha => hsame _ (h.lines.inside ha).1 (h.lines.inside ha).2
  have hclosure : ∀ {a i g}, line a = some i → Closure s i g → s'.cell g = s.cell g := by
    intro a i g ha hc
    obtain ⟨lo, hap, -⟩ := h.spans ha hc
    have := (h.lines.inside ha).2
    exact hsame g (Nat.le_trans hap.above hap.le) (by have := hap.lt; omega)
  refine ⟨h.lines.keep hk hsize hline hclosure, h.below, h.inBody, fun {a i g} ha hc => ?_⟩
  obtain ⟨lo, hap, hl⟩ := h.spans ha (h.lines.closure_of_keep hk hsize hline hclosure ha hc)
  refine ⟨lo, hap, hl.keep hk hsize fun j hj hj' => hsame j (Nat.le_trans hap.above hj) ?_⟩
  have := hap.lt
  have := (h.lines.inside ha).2
  omega

theorem Lined.grow (h : Lined s code ends mid line bound) (hg : Grows s s') :
    Lined s' code ends mid line bound :=
  h.keep hg.keeps hg.size fun j _ hj => hg.cell j hj

/-- The store in which the statement that a step has made has got its address. -/
def Addressed (s : Store) (r : Option NodeId) (a : Int) (s' : Store) : Prop :=
  match r with
  | none => s' = s
  | some x => Readdressed s x s' ∧ (s'.cell x).address = some a

theorem Stated.grows_addressed (h : Stated fn w r w') (hs : Addressed w'.store r a s') :
    Grows w.store s' := by
  cases r with
  | none =>
    obtain rfl : s' = w'.store := hs
    exact h.grows
  | some x =>
    refine ⟨hs.1.size ▸ h.grows.size, fun j hj => ?_⟩
    rw [hs.1.cell j fun hjx => absurd (h.fresh x rfl) (by rw [← hjx]; omega), h.grows.cell j hj]

theorem Lined.step (h : Lined w.store code ends mid line a) (hmid : mid ≤ w.store.cells.size)
    (hst : Stated Lifted w r w') (hs : Addressed w'.store r a s')
    (hbody : ∃ k < ends.length, firstOf ends k ≤ a ∧ a ≤ stopOf code ends k) :
    Lined s' code ends mid (fun b => if b = a then r else line b) (a + 1) := by
  have hg := hst.grows_addressed hs
  have hold := h.grow hg
  have hsplit : ∀ {b i}, (if b = a then r else line b) = some i →
      (b = a ∧ r = some i) ∨ (b ≠ a ∧ line b = some i) := by
    intro b i hb
    split at hb
    · exact .inl ⟨‹_›, hb⟩
    · exact .inr ⟨‹_›, hb⟩
  have hnew : ∀ {x}, r = some x → Readdressed w'.store x s' ∧ (s'.cell x).address = some a := by
    rintro x rfl
    exact hs
  have hinside : ∀ {x}, r = some x → x.index < s'.cells.size := by
    intro x hx
    have hcell := (hnew hx).2
    refine Nat.lt_of_not_le fun hle => ?_
    rw [cell_outside hle] at hcell
    cases hcell
  refine ⟨⟨?_, ?_, ?_, ?_⟩, ?_, ?_, ?_⟩
  · intro b c i j hb hc hlt
    rcases hsplit hb with ⟨rfl, hi⟩ | ⟨hba, hi⟩ <;> rcases hsplit hc with ⟨rfl, hj⟩ | ⟨hca, hj⟩
    · omega
    · have := h.below hj
      omega
    · have := (h.lines.inside hi).2
      have := hst.fresh j hj
      omega
    · exact h.lines.order hi hj hlt
  · intro b i hb
    rcases hsplit hb with ⟨rfl, hi⟩ | ⟨hba, hi⟩
    · exact ⟨Nat.le_trans hmid (hst.fresh i hi), hinside hi⟩
    · exact hold.lines.inside hi
  · intro b i hb
    rcases hsplit hb with ⟨rfl, hi⟩ | ⟨hba, hi⟩
    · exact (hnew hi).2
    · exact hold.lines.address hi
  · intro b i hb
    rcases hsplit hb with ⟨rfl, hi⟩ | ⟨hba, hi⟩
    · rcases hst.content i hi with hc | ⟨g, hc⟩
      · exact .inl (hc.readdress (hnew hi).1)
      · exact .inr ⟨g, hc.readdress (hnew hi).1⟩
    · exact hold.lines.content hi
  · intro b i hb
    rcases hsplit hb with ⟨rfl, hi⟩ | ⟨hba, hi⟩
    · omega
    · have := h.below hi
      omega
  · intro b i hb
    rcases hsplit hb with ⟨rfl, hi⟩ | ⟨hba, hi⟩
    · exact hbody
    · exact h.inBody hi
  · intro b i g hb hc
    rcases hsplit hb with ⟨rfl, hi⟩ | ⟨hba, hi⟩
    · have hc' : Closure w'.store i g := by
        rcases hst.content i hi with hcontent | ⟨g', hc'⟩
        · exact absurd hc (hcontent.readdress (hnew hi).1).not_closure
        · exact hc.unique (hc'.readdress (hnew hi).1) ▸ hc'
      obtain ⟨hle, hlt, hfn⟩ := hst.closure i g hi hc'
      refine ⟨_, ⟨hmid, hle, hlt, fun {c j} hcj hlt => ?_⟩, hfn s' (hnew hi).1⟩
      rcases hsplit hcj with ⟨rfl, -⟩ | ⟨-, hj⟩
      · omega
      · exact (h.lines.inside hj).2
    · obtain ⟨lo, hap, hl⟩ := hold.spans hi hc
      have hlt := h.below hi
      refine ⟨lo, ⟨hap.above, hap.le, hap.lt, fun {c j} hcj hlt' => ?_⟩, hl⟩
      rcases hsplit hcj with ⟨rfl, -⟩ | ⟨-, hj⟩
      · omega
      · exact hap.behind hj hlt'

/-! ## Filling blocks -/

theorem succeeds_setAddress (hr : ∀ x, r = some x → x.index < w.store.cells.size) :
    Succeeds (r.forM (setAddress · a)) w fun _ w' => Addressed w.store r a w'.store := by
  cases r with
  | none => exact .pure rfl
  | some x =>
    have hself := cell_modifyCell_self (f := fun c => { c with address := some a }) (hr x rfl)
    have hset : Succeeds (setAddress x a) w fun _ w' => Addressed w.store (some x) a w'.store := by
      refine succeeds_modifyStore ⟨⟨?_, fun i hi => cell_modifyCell_of_ne hi, ?_⟩, ?_⟩
      · exact size_modifyCell ..
      · rw [Store.node, hself]
        rfl
      · rw [hself]
    exact hset

theorem Stated.inside (h : Stated fn w r w') : ∀ x, r = some x → x.index < w'.store.cells.size := by
  intro x hx
  refine inside_of_node fun habsent => ?_
  rcases h.content x hx with hc | ⟨g, hc⟩
  · cases hc with
    | plain _ hs =>
      rw [habsent] at hs
      cases hs
    | ret hn _ =>
      rw [habsent] at hn
      cases hn
  · obtain ⟨⟨_, _, _, hn, -⟩, -⟩ := hc
    rw [habsent] at hn
    cases hn

variable {child : Prototype → Edit NodeId}

/-- Makes the statement of an address, which gets the address. -/
def lineAt (child : Prototype → Edit NodeId) (p : Prototype) (a : Int) : Edit (Option NodeId) := do
  let r ← statement child p a (← atPosition p.instructions a)
  r.forM (setAddress · a)
  return r

theorem Lined.mono {bound' : Int} (h : Lined s code ends mid line bound) (hb : bound ≤ bound') :
    Lined s code ends mid line bound' :=
  { h with below := fun ha => by have := h.below ha; omega }

section
variable (h : WellFormed p) (hchild : MakesFunctions Lifted child p) (he : BlockEnds p.instructions ends)
  (hk : k < ends.length) (hmid : mid ≤ w.store.cells.size)
include h hchild he hk hmid

theorem succeeds_lineAt (hfirst : firstOf ends k ≤ a) (hstop : a ≤ stopOf p.instructions ends k)
    (hl : Lined w.store p.instructions ends mid line a) :
    Succeeds (lineAt child p a) w fun r w' => Grows w.store w'.store ∧
      Lined w'.store p.instructions ends mid (fun b => if b = a then r else line b) (a + 1) := by
  have hpos := he.firstOf_pos (k := k) (by omega)
  have hlast : a < p.instructions.length := by
    have := (stopOf_inside h.branching h.iteratorsCalled he hk).2.1
    have := he.lastOf_le hk
    omega
  obtain ⟨i, hi⟩ : ∃ i, p.instructions[a.toNat]? = some i :=
    ⟨_, List.getElem?_eq_getElem (by omega)⟩
  have hmem := mem_drop_of_address (by omega) hi
  have hleg := h.legible i hmem
  have ho : opAt p.instructions a = some i.op := by rw [opAt_of (by omega) hi, hleg.meaning]
  have hin := isInBlock_of_body h he hk ho hfirst hstop
  refine (succeeds_atPosition ((at?_of_nonneg (by omega)).trans hi) ?_).bind
  refine (succeeds_statement (fun hg hf => hf.grow hg) hchild hleg (h.slots i hmem) rfl hin).next
    fun r w1 hst => ?_
  refine (succeeds_setAddress hst.inside).next fun _ w2 hs => .pure ?_
  exact ⟨hst.grows_addressed hs, hl.step hmid hst hs ⟨k, hk, hfirst, hstop⟩⟩

theorem succeeds_contents (hl : Lined w.store p.instructions ends mid line (firstOf ends k)) :
    Succeeds ((List.range (stopOf p.instructions ends k - firstOf ends k + 1).toNat).mapM
      fun (j : Nat) => lineAt child p (firstOf ends k + j)) w fun rs w' =>
        Grows w.store w'.store ∧ ∃ line',
          Lined w'.store p.instructions ends mid line' (firstOf ends (k + 1)) ∧
          (∀ a < firstOf ends k, line' a = line a) ∧
          rs.filterMap id = bodyOf p.instructions ends line' k := by
  obtain ⟨hfirst, hlast, -⟩ := stopOf_inside h.branching h.iteratorsCalled he hk
  have hloop : Succeeds ((List.range (stopOf p.instructions ends k - firstOf ends k + 1).toNat).mapM
      fun (j : Nat) => lineAt child p (firstOf ends k + j)) w fun rs w' =>
        rs.length = (List.range (stopOf p.instructions ends k - firstOf ends k + 1).toNat).length ∧
        Grows w.store w'.store ∧ ∃ line',
          Lined w'.store p.instructions ends mid line' (firstOf ends k + rs.length) ∧
          (∀ a < firstOf ends k, line' a = line a) ∧
          rs = (List.range rs.length).map fun (j : Nat) => line' (firstOf ends k + j) := by
    refine Succeeds.mapM _ ⟨.refl _, line, by simpa using hl, fun _ _ => rfl, rfl⟩ ?_
    rintro rs j v hj ⟨hg, line', hl', hbelow, hrs⟩
    obtain ⟨hlt, rfl⟩ : rs.length < (stopOf p.instructions ends k - firstOf ends k + 1).toNat ∧
        j = rs.length := by
      obtain ⟨hlt, hj⟩ := List.getElem?_eq_some_iff.mp hj
      rw [List.length_range] at hlt
      exact ⟨hlt, by simpa using hj.symm⟩
    refine (succeeds_lineAt h hchild he hk (Nat.le_trans hmid hg.size) (by omega) (by omega)
      hl').mono fun r v' ⟨hg', hl''⟩ => ⟨hg.trans hg',
        fun b => if b = firstOf ends k + rs.length then r else line' b, ?_, ?_, ?_⟩
    · rw [List.length_append, List.length_singleton]
      exact hl''.mono (by omega)
    · intro a ha
      dsimp only
      rw [if_neg (by omega), hbelow a ha]
    · rw [List.length_append, List.length_singleton, List.range_succ, List.map_append,
        List.map_singleton]
      dsimp only
      rw [if_pos rfl]
      congr 1
      conv_lhs => rw [hrs]
      refine List.map_congr_left fun j hj => ?_
      have := List.mem_range.mp hj
      rw [if_neg (by omega)]
  refine hloop.mono fun rs w' ⟨hlen, hg, line', hl', hbelow, hrs⟩ => ⟨hg, line', ?_, hbelow, ?_⟩
  · rw [List.length_range] at hlen
    refine hl'.mono ?_
    rw [firstOf_succ, hlen]
    omega
  · rw [List.length_range] at hlen
    rw [hrs, hlen, bodyOf, addresses, List.filterMap_map, List.filterMap_map,
      show stopOf p.instructions ends k + 1 - firstOf ends k =
        stopOf p.instructions ends k - firstOf ends k + 1 by omega]
    rfl

end

variable {blocks : List NodeId} {exit : Nat → NodeId} {base : Store}

/-- The first `k` blocks of a function hold their statements. -/
structure Filling (p : Prototype) (ends : List Int) (blocks : List NodeId) (exit : Nat → NodeId)
    (base : Store) (k : Nat) (line : Int → Option NodeId) (s : Store) : Prop where
  lined : Lined s p.instructions ends base.cells.size line (firstOf ends k)
  alters : Alters (· ∈ blocks) base s
  block : ∀ (j : Nat) i, blocks[j]? = some i → ∃ e, s.cell i = ⟨.block {
    index := j, exit := exit j, contents := if j < k then bodyOf p.instructions ends line j else []
    first := firstOf ends j, last := lastOf ends j, entries := e }, none, false⟩

theorem bodyOf_congr {line' : Int → Option NodeId} (he : BlockEnds code ends)
    (hle : stopOf code ends k ≤ lastOf ends k) {m : Nat} (hkm : k < m) (hm : m ≤ ends.length)
    (h : ∀ a < firstOf ends m, line' a = line a) : bodyOf code ends line' k = bodyOf code ends line k := by
  refine List.filterMap_congr fun a ha => h a ?_
  obtain ⟨-, ha⟩ := mem_addresses.mp ha
  rcases Nat.lt_or_ge (k + 1) m with hlt | hge
  · have := he.firstOf_lt hlt hm
    rw [firstOf_succ] at this
    omega
  · obtain rfl : m = k + 1 := by omega
    rw [firstOf_succ]
    omega

theorem Filling.succeeds_fillBlock (h : WellFormed p) (hchild : MakesFunctions Lifted child p)
    (he : BlockEnds p.instructions ends) (hk : k < ends.length) (hn : blocks.Nodup)
    (hin : ∀ i ∈ blocks, i.index < base.cells.size) {i : NodeId} (hi : blocks[k]? = some i)
    (hf : Filling p ends blocks exit base k line w.store) :
    Succeeds (fillBlock child p i (stopOf p.instructions ends k)) w fun _ w' =>
      ∃ line', Filling p ends blocks exit base (k + 1) line' w'.store := by
  obtain ⟨e, hcell⟩ := hf.block k i hi
  have hnode : w.store.node i = .block _ := congrArg Cell.node hcell
  have hmid := hf.alters.size
  have hi' := hin i (List.mem_of_getElem? hi)
  refine (succeeds_block hnode ?_).bind
  refine (succeeds_contents h hchild he hk hmid hf.lined).next
    fun rs w1 ⟨hg, line', hl, hbelow, hrs⟩ => ?_
  have hcell1 := (hg.cell i (by omega)).trans hcell
  have hnode1 : w1.store.node i = .block _ := congrArg Cell.node hcell1
  refine succeeds_modifyBlock hnode1 ⟨line', ?_, ?_, fun j i' hj => ?_⟩
  · refine hl.keep (fun j hj => cell_setNode_of_ne ?_) (Nat.le_of_eq (size_setNode ..).symm)
      fun j hj _ => cell_setNode_of_ne ?_
    · rintro rfl
      rw [hnode1] at hj
      cases hj
    · rintro rfl
      omega
  · exact (hf.alters.trans hg.alters).trans (alters_setNode (List.mem_of_getElem? hi))
  · by_cases hjk : j = k
    · subst hjk
      obtain rfl : i' = i := Option.some.inj (hj.symm.trans hi)
      refine ⟨e, ?_⟩
      rw [cell_setNode_self (by have := hg.size; omega), hcell1, if_pos (Nat.lt_succ_self j), hrs]
    · have hne : i' ≠ i := by
        rintro rfl
        exact hjk ((List.getElem?_inj (List.getElem?_eq_some_iff.mp hj).1 hn).mp (hj.trans hi.symm))
      obtain ⟨e', hcell'⟩ := hf.block j i' hj
      refine ⟨e', ?_⟩
      rw [cell_setNode_of_ne hne, hg.cell i' (by have := hin i' (List.mem_of_getElem? hj); omega), hcell']
      by_cases hlt : j < k
      · have hle := (stopOf_inside h.branching h.iteratorsCalled he (k := j) (by omega)).2.1
        rw [if_pos hlt, if_pos (by omega), bodyOf_congr he hle hlt (by omega) hbelow]
      · rw [if_neg hlt, if_neg (by omega)]

theorem Leads.isExit {at_ : Int → NodeId → Prop} {way : Way} {n : Node} (h : Leads at_ way n) :
    n.isExit = true := by
  cases h <;> rfl

theorem BlockGraph.exit_cell (h : BlockGraph p valid ends blocks base exit s) (hk : k < ends.length) :
    (exit k).index < s.cells.size ∧ exit k ∉ blocks := by
  have hexit : (s.node (exit k)).isExit = true := by
    by_cases hm : k + 1 = ends.length
    · have hfinal := congrArg Cell.node h.final
      rw [← hm, Nat.add_sub_cancel] at hfinal
      rw [Store.node, hfinal]
      rfl
    · obtain ⟨n, hcell, hleads, -⟩ := h.shown k (by omega)
      rw [Store.node, hcell]
      exact hleads.isExit
  refine ⟨inside_of_node fun hn => ?_, fun hm => ?_⟩
  · rw [hn] at hexit
    cases hexit
  · obtain ⟨j, hj⟩ := List.mem_iff_getElem?.mp hm
    rw [h.framed.node hj] at hexit
    cases hexit

theorem Filling.bodies {first : Store} (h : WellFormed p)
    (hg : BlockGraph p True ends blocks first exit base)
    (hf : Filling p ends blocks exit base ends.length line s) (L : NodeId) :
    Bodies s first.cells.size ⟨p, ends, blocks, exit, line, L, base.cells.size⟩ := by
  have hexit : ∀ k < ends.length, s.cell (exit k) = base.cell (exit k) := fun k hk =>
    hf.alters.cell _ (hg.exit_cell hk).1 (hg.exit_cell hk).2
  refine ⟨h, hg.blockEnds, hg.length, hg.nodup, fun k i hi => ?_,
    fun i hi => ⟨hg.freshBlock i hi, hg.framed.inside hi⟩,
    fun k hk => ⟨hg.freshExit k hk, (hg.exit_cell hk).1⟩, hg.order, fun k hk => ?_, ?_,
    hf.lined.lines, hf.lined.inBody⟩
  · obtain ⟨e, hcell⟩ := hf.block k i hi
    have := (List.getElem?_eq_some_iff.mp hi).1
    rw [if_pos (by rw [← hg.length]; exact this)] at hcell
    exact ⟨e, hcell⟩
  · obtain ⟨n, hcell, hleads, hparts⟩ := hg.shown k hk
    exact ⟨n, (hexit k (by exact Nat.lt_of_succ_lt hk)).trans hcell, hleads,
      (hparts trivial).keep (hg.framed.keeps hf.alters) hf.alters.size⟩
  · exact (hexit _ (Nat.sub_lt hg.blockEnds.pos Nat.one_pos)).trans hg.final

theorem BlockGraph.filling {i : NodeId} (h : BlockGraph p valid ends blocks base exit s)
    (hi : blocks[0]? = some i) :
    Filling p ends blocks exit s 0 (fun _ => none) (s.setNode i (.block
      { blockAt ends (targetsBefore p.instructions ends (ends.length - 1)) exit 0 with
        entries := 1 })) := by
  refine ⟨⟨⟨?_, ?_, ?_, ?_⟩, ?_, ?_, ?_⟩, alters_setNode (List.mem_of_getElem? hi), fun j i' hj => ?_⟩
  case refine_8 =>
    by_cases hj0 : j = 0
    · subst hj0
      obtain rfl : i' = i := Option.some.inj (hj.symm.trans hi)
      exact ⟨1, by rw [cell_setNode_self (h.framed.inside (List.mem_of_getElem? hi)), h.framed 0 i' hi]; rfl⟩
    · have hne : i' ≠ i := by
        rintro rfl
        exact hj0 ((List.getElem?_inj (List.getElem?_eq_some_iff.mp hj).1 h.nodup).mp (hj.trans hi.symm))
      exact ⟨_, by rw [cell_setNode_of_ne hne, h.framed j i' hj]; rfl⟩
  all_goals
    intros
    contradiction

theorem Filling.succeeds_fillBlocks (h : WellFormed p) (hchild : MakesFunctions Lifted child p)
    (he : BlockEnds p.instructions ends) (hlen : blocks.length = ends.length) (hn : blocks.Nodup)
    (hin : ∀ i ∈ blocks, i.index < base.cells.size)
    (hf : Filling p ends blocks exit base 0 line w.store) :
    Succeeds ((blocks.zip ((List.range ends.length).map (stopOf p.instructions ends))).forM
      fun x => fillBlock child p x.1 x.2) w fun _ w' =>
        ∃ line', Filling p ends blocks exit base ends.length line' w'.store := by
  have hzip : (blocks.zip ((List.range ends.length).map (stopOf p.instructions ends))).length =
      ends.length := by simp [hlen]
  refine (Succeeds.forM (fun k v => ∃ line', Filling p ends blocks exit base k line' v.store)
    ⟨line, hf⟩ ?_).mono fun _ w' hw => hzip ▸ hw
  rintro k ⟨i, stop⟩ v hx ⟨line', hv⟩
  obtain ⟨hi, hstop⟩ := List.getElem?_zip_eq_some.mp hx
  have hk : k < ends.length := hlen ▸ (List.getElem?_eq_some_iff.mp hi).1
  rw [List.getElem?_map, List.getElem?_range hk] at hstop
  obtain rfl := Option.some.inj hstop
  exact hv.succeeds_fillBlock h hchild he hk hn hin hi

theorem succeeds_functionBlocks (h : WellFormed p) (hchild : MakesFunctions Lifted child p) :
    Succeeds (functionBlocks child p) w fun blocks w' => Grows w.store w'.store ∧
      ∃ ends exit line mid, mid ≤ w'.store.cells.size ∧
        (∀ L, Bodies w'.store w.store.cells.size ⟨p, ends, blocks, exit, line, L, mid⟩) ∧
        Lined w'.store p.instructions ends mid line (firstOf ends ends.length) := by
  have hbr := h.branching
  have he := blockEnds_lastsOf hbr.toJumping
  refine (succeeds_addBlocks hbr.toJumping).next fun blocks w1 ⟨hlen, hn, hfresh, hg, hf⟩ => ?_
  have hexits : Succeeds (setExits p blocks) w1 fun stops w' =>
      stops = (List.range (lastsOf p.instructions).length).map
        (stopOf p.instructions (lastsOf p.instructions)) ∧
      ∃ exit, BlockGraph p True (lastsOf p.instructions) blocks w.store exit w'.store :=
    succeeds_setExits hbr h.iteratorsCalled h.legible (fun _ => h.slots) he hlen hn hfresh hg hf
  generalize lastsOf p.instructions = ends at he hlen hexits
  obtain ⟨first, rest, rfl⟩ : ∃ first rest, blocks = first :: rest :=
    List.exists_cons_of_length_pos (by have := he.pos; omega)
  refine hexits.next fun stops w2 ⟨hstops, exit, hgraph⟩ => ?_
  subst hstops
  have hin := fun i hi => hgraph.framed.inside (i := i) hi
  refine (succeeds_modifyBlock (hgraph.framed.node (k := 0) rfl) ?_).bind
  refine ((hgraph.filling rfl).succeeds_fillBlocks h hchild he hlen hn hin).next
    fun _ w3 ⟨line, hf⟩ => .pure ⟨?_, ends, exit, line, w2.store.cells.size, hf.alters.size,
      hf.bodies h hgraph, hf.lined⟩
  exact (hgraph.grows.alters.trans hf.alters).grows hgraph.freshBlock

/-! ## Whole functions -/

theorem height_lt_of_child {q : Prototype} (h : .child q ∈ p.complex) : q.height < p.height := by
  have hlist : ∀ cs : List (Complex Prototype), .child q ∈ cs → q.height ≤ Prototype.heights cs := by
    intro cs
    induction cs with
    | nil => simp
    | cons c cs ih =>
      intro hmem
      rcases List.mem_cons.mp hmem with rfl | hmem
      · simp only [Prototype.heights]
        omega
      · have := ih hmem
        cases c <;> simp only [Prototype.heights] <;> omega
  cases p
  exact Nat.lt_succ_of_le (hlist _ h)

/-- The functions in the statements of a function are lifted, so the function is. -/
theorem Laid.lifted (h : Laid s lo f F)
    (hl : Lined s F.p.instructions F.ends F.mid F.line bound) : Lifted s lo f :=
  .tree F (fun ha hc => (hl.spans ha hc).choose) h (fun ha hc => (hl.spans ha hc).choose_spec.1)
    fun ha hc => (hl.spans ha hc).choose_spec.2

theorem makes_arguments {xs : List NodeId}
    (hx : ∀ x ∈ xs, Has w.store (fun n => isIdentifierNode n || n == .vararg) x) :
    Makes (addList .identifiers xs) w (Node.isList .identifiers) :=
  makes_list (by decide) rfl hx

/-- Every well-formed function is lifted. -/
theorem succeeds_liftFunction {depth : Nat} (h : Throughout WellFormed p) (hd : p.height ≤ depth) :
    Succeeds (liftFunction depth p) w fun f w' =>
      Grows w.store w'.store ∧ w.store.cells.size ≤ f.index ∧
      (∃ as ss scope, w'.store.cell f = ⟨.function as ss scope, none, false⟩) ∧
      Lifted w'.store w.store.cells.size f := by
  induction depth generalizing p w with
  | zero =>
    cases p
    simp only [Prototype.height] at hd
    omega
  | succ depth ih =>
    obtain ⟨hw, hsub⟩ := h
    have hchild : MakesFunctions Lifted (liftFunction depth) p := fun q hq v =>
      ih (hsub q hq) (by have := height_lt_of_child hq; omega)
    -- What follows once the arguments are there.
    have hrest : ∀ {xs : List NodeId} {w1 : Work Unit}, Grows w.store w1.store →
        (∀ x ∈ xs, Has w1.store (fun n => isIdentifierNode n || n == .vararg) x) →
        Succeeds (do
          let blocks ← functionBlocks (liftFunction depth) p
          let arguments ← addList .identifiers xs
          let statements ← addList .statements blocks
          add (.function arguments statements
            { debug := some p.debug, instructionCount := p.instructions.length })) w1 fun f w' =>
          Grows w.store w'.store ∧ w.store.cells.size ≤ f.index ∧
          (∃ as ss scope, w'.store.cell f = ⟨.function as ss scope, none, false⟩) ∧
          Lifted w'.store w.store.cells.size f := by
      intro xs w1 hg1 hxs
      refine (succeeds_functionBlocks hw hchild).next ?_
      rintro blocks w2 ⟨hg2, ends, exit, line, mid, hmid, hb, hl⟩
      refine Succeeds.next (makes_arguments fun x hx => (hxs x hx).grow hg2) ?_
      rintro as w3 ⟨hg3, has⟩
      refine succeeds_add_new.next ?_
      rintro ss w4 ⟨hg4, hss, hsscell⟩
      refine succeeds_add_new.mono ?_
      rintro f w5 ⟨hg5, hf, hfcell⟩
      have hlater := (hg3.trans hg4).trans hg5
      have hl5 := hl.grow hlater
      have hss4 : ss.index < w4.store.cells.size := inside_of_node (by rw [Store.node, hsscell]; simp)
      have hsize3 := hg3.size
      have hbodies : Bodies w5.store w.store.cells.size ⟨p, ends, blocks, exit, line, ss, mid⟩ :=
        ((hb ss).keep hlater.keeps hlater.size
          (fun j _ hj => hlater.cell j (Nat.lt_of_lt_of_le hj hmid)) hl5.lines).weaken hg1.size
      have hlaid : Laid w5.store w.store.cells.size f ⟨p, ends, blocks, exit, line, ss, mid⟩ :=
        { hbodies with
          function := ⟨as, hfcell, (has.grow hg4).grow hg5⟩
          list := (hg5.cell ss hss4).trans hsscell
          above := by show mid ≤ ss.index; omega
          below := by show ss.index < f.index; omega
          lineBelow := fun ha => by
            show _ < ss.index
            have := (hl.lines.inside ha).2
            omega }
      have hgrows := (hg1.trans hg2).trans hlater
      refine ⟨hgrows, ?_, ⟨_, _, _, hfcell⟩, hlaid.lifted hl5⟩
      have := ((hg1.trans hg2).trans (hg3.trans hg4)).size
      omega
    refine (succeeds_slots (Int.le_refl 0)).next ?_
    rintro named w1 ⟨-, hg1, hnamed⟩
    split
    · have hvararg : Makes (add .vararg) w1 fun n => isIdentifierNode n || n == .vararg :=
        makes_leaf rfl rfl rfl rfl
      refine Succeeds.next hvararg ?_
      rintro v w2 ⟨hg2, hv⟩
      refine hrest (hg1.trans hg2) fun x hx => ?_
      rcases List.mem_append.mp hx with hx | hx
      · exact ((hnamed x hx).grow hg2).weaken (by simp_all)
      · exact List.mem_singleton.mp hx ▸ hv
    · exact hrest hg1 fun x hx => (hnamed x hx).weaken (by simp_all)

end LuaLift.Proofs
