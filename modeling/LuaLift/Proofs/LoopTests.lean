import LuaLift.Proofs.Arrangements

/-! # Moving the tests of loops

The test at the end of a loop changes places with the exit in front of the body. In well-formed
bytecode that exit is still there when its turn comes (`Awaiting`), because no two loops
start at the same place; so each round succeeds, and so do all of them. A return that moves to before
a jump is met on every path as before if it has no other way in (`OnlyBehind`). -/
namespace LuaLift.Proofs
open Bytecode Tree Pass Lift Flow

variable {p : Prototype} {ends : List Int} {j k : Nat} {a : Int}

/-! ## Where loops start -/

/-- A loop over an iterator is entered by a jump to the block of its test, from the block in front
of its body. -/
theorem WellFormed.iterate_start (h : WellFormed p) (he : BlockEnds p.instructions ends)
    (hk : k < ends.length) (ho : opAt p.instructions (lastOf ends k) = some .iterl) :
    ∃ j < k, wayFrom p.instructions (lastOf ends j) = .jump (firstOf ends k) false ∧
      destinationAt p.instructions (lastOf ends k) = some (firstOf ends (j + 1)) := by
  obtain ⟨o, hit, hiter⟩ := (Option.any_eq_true ..).mp (h.called.at ho rfl)
  obtain ⟨-, -, n, -, hleap, htest, hto, hback⟩ := h.iterator.at hit hiter
  rw [Int.sub_add_cancel] at hback
  obtain ⟨o', ho', hleap⟩ := (Option.any_eq_true ..).mp hleap
  obtain ⟨hb, hu⟩ := isLeap_branch o' hleap
  have hends := (endsBlock_of_branch ho' hb hto fun hx => hu hx.1).2
  obtain ⟨j, hj, hje⟩ := he.exists_last (exists_of_opAt ho').1 hends
  -- The block of the test starts at the call of the iterator.
  obtain ⟨m, hm, hmf⟩ := begins_of_branch h.toJumping he ho' hb hto fun hx => hu hx.1
  obtain ⟨-, -, hfirst⟩ := folded_inside h.branching h.iteratorsCalled he hk
  have hfold : folded p.instructions (lastOf ends k) = 2 := by simp [folded, ho]
  obtain rfl := he.eq_of_inside hm hk (Int.le_refl _) (he.firstOf_le_lastOf hm) (by omega) (by omega)
  obtain ⟨d, hd, hle⟩ := (Option.any_eq_true ..).mp (h.back.at ho (.inr rfl))
  have hle : d ≤ lastOf ends m := by simpa using hle
  have hde : d = n + 1 := Option.some.inj (hd.symm.trans hback)
  refine ⟨j, ?_, ?_, by rw [firstOf_succ, hje, hback]⟩
  · refine Nat.lt_of_not_le fun hmj => ?_
    have := he.firstOf_le (show m + 1 ≤ j + 1 by omega) (by omega)
    rw [firstOf_succ, firstOf_succ] at this
    omega
  · rw [hje, wayFrom, ho', hto]
    cases o' with
    | jmp | isnext => simp [htest, hmf]
    | _ => cases hleap

theorem WellFormed.count_start (h : WellFormed p) (he : BlockEnds p.instructions ends)
    (ho : opAt p.instructions (lastOf ends k) = some .forl) :
    ∃ j < k, wayFrom p.instructions (lastOf ends j) = .flow (firstOf ends (j + 1)) ∧
      destinationAt p.instructions (lastOf ends k) = some (firstOf ends (j + 1)) := by
  obtain ⟨n, -, hfori, hto, hback⟩ := h.count.at ho rfl
  have hends := (endsBlock_of_branch hfori rfl hto (by simp)).2
  obtain ⟨j, hj, hje⟩ := he.exists_last (exists_of_opAt hfori).1 hends
  obtain ⟨d, hd, hle⟩ := (Option.any_eq_true ..).mp (h.back.at ho (.inl rfl))
  have hle : d ≤ lastOf ends k := by simpa using hle
  have hde : d = n + 1 := Option.some.inj (hd.symm.trans hback)
  refine ⟨j, ?_, ?_, by rw [firstOf_succ, hje, hback]⟩
  · refine Nat.lt_of_not_le fun hkj => ?_
    have := he.firstOf_le (show k + 1 ≤ j + 1 by omega) (by omega)
    rw [firstOf_succ, firstOf_succ] at this
    omega
  · rw [firstOf_succ, hje, wayFrom, hfori]

variable {b : Int} {kind : JumpKind} {t x body start : NodeId}

/-- No two loops start at the same place. -/
theorem WellFormed.start_unique (h : WellFormed p) {d : Int} {o o' : Opcode}
    (ho : opAt p.instructions a = some o) (ho' : opAt p.instructions b = some o')
    (hk : o = .forl ∨ o = .iterl) (hk' : o' = .forl ∨ o' = .iterl)
    (hd : destinationAt p.instructions a = some d) (hd' : destinationAt p.instructions b = some d) :
    a = b := by
  -- The instruction in front of the body says where the loop ends.
  have hstart : ∀ {a : Int} {o : Opcode}, opAt p.instructions a = some o → (o = .forl ∨ o = .iterl) →
      destinationAt p.instructions a = some d →
      (opAt p.instructions (d - 1) = some .fori ∧ destinationAt p.instructions (d - 1) = some (a + 1)) ∨
      ((opAt p.instructions (d - 1)).any isLeap = true ∧
        destinationAt p.instructions (d - 1) = some (a - 1)) := by
    intro a o ho hk hd
    rcases hk with rfl | rfl
    · obtain ⟨n, -, hfori, hto, hback⟩ := h.count.at ho rfl
      obtain rfl : d = n + 1 := Option.some.inj (hd.symm.trans hback)
      rw [Int.add_sub_cancel]
      exact .inl ⟨hfori, hto⟩
    · obtain ⟨o, hit, hiter⟩ := (Option.any_eq_true ..).mp (h.called.at ho rfl)
      obtain ⟨-, -, n, -, hleap, -, hto, hback⟩ := h.iterator.at hit hiter
      rw [Int.sub_add_cancel] at hback
      obtain rfl : d = n + 1 := Option.some.inj (hd.symm.trans hback)
      rw [Int.add_sub_cancel]
      exact .inr ⟨hleap, hto⟩
  rcases hstart ho hk hd with ⟨hf, hto⟩ | ⟨hl, hto⟩ <;> rcases hstart ho' hk' hd' with ⟨hf',
    hto'⟩ | ⟨hl', hto'⟩
  · have := Option.some.inj (hto.symm.trans hto')
    omega
  · rw [hf] at hl'
    cases hl'
  · rw [hf'] at hl
    cases hl
  · have := Option.some.inj (hto.symm.trans hto')
    omega
variable {base s s' s'' : Store} {lo : Nat} {F : Frame} {A A' A'' : Arrangement} {i : NodeId}
  {T T' : Nat → Prop} {w : Work Unit}

/-! ## What the rounds to come rely on -/

/-- Block `j` stands in front of the body of the loop that block `l` ends. -/
def Frame.StartsLoop (F : Frame) (l j : Nat) : Prop :=
  j < l ∧ destinationAt F.p.instructions (lastOf F.ends l) = some (firstOf F.ends (j + 1)) ∧
    (opAt F.p.instructions (lastOf F.ends l) = some .forl ∨
      opAt F.p.instructions (lastOf F.ends l) = some .iterl)

/-- The exit of place `j` is the one that lifting has put there. -/
def Untouched (base : Store) (F : Frame) (A : Arrangement) (s : Store) (j : Nat) : Prop :=
  A.exit j = F.exit j ∧ s.cell (F.exit j) = base.cell (F.exit j)

/-- Before the round of block `k` the exits from `k` on are as they were, and so are those of the
blocks in front of loops that end there. -/
structure Awaiting (base : Store) (F : Frame) (k : Nat) (A : Arrangement) (s : Store) : Prop where
  exit : ∀ j, k ≤ j → j < F.ends.length → Untouched base F A s j
  start : ∀ j < F.ends.length, ∀ kind t, base.node (F.exit j) = .jump kind t false →
    (∀ l < k, ¬ F.StartsLoop l j) → Untouched base F A s j

/-- The blocks from `k` on have the indices of their positions. -/
def Frame.Indexed (F : Frame) (k : Nat) (s : Store) : Prop :=
  ∀ j i, k ≤ j → F.blocks[j]? = some i → blockIndex? (s.node i) = some (j : Int)

theorem Untouched.next (h : Untouched base F A s j) (hr : Rearranged base F k T A A' s s')
    (hj : j < F.ends.length) (hT : ¬ T j) : Untouched base F A' s' j := by
  obtain ⟨he, hc⟩ := hr.exit j hj hT
  rw [h.1] at he hc
  exact ⟨he, hc.trans h.2⟩

theorem Awaiting.same (h : Awaiting base F k A s) (hr : Rearranged base F k (fun _ => False) A A' s s') :
    Awaiting base F k A' s' :=
  ⟨fun j hkj hj => (h.exit j hkj hj).next hr hj id,
    fun j hj kind t hn hl => (h.start j hj kind t hn hl).next hr hj id⟩

/-- A round changes its own exit and that of the block in front of the loop. -/
theorem Awaiting.next (h : Awaiting base F k A s) (hr : Rearranged base F k T A A' s s')
    (hT : ∀ m, T m → F.StartsLoop k m ∨
      (m = k ∧ ∀ kind t, base.node (F.exit k) ≠ .jump kind t false)) :
    Awaiting base F (k + 1) A' s' := by
  refine ⟨fun j hkj hj => (h.exit j (by omega) hj).next hr hj fun ht => ?_,
    fun j hj kind t hn hl => (h.start j hj kind t hn fun l hlk => hl l (by omega)).next hr hj fun ht => ?_⟩
  · rcases hT j ht with ⟨hlt, -⟩ | ⟨rfl, -⟩ <;> omega
  · rcases hT j ht with hs | ⟨rfl, hne⟩
    · exact hl k (by omega) hs
    · exact hne kind t hn

theorem Rearranged.indexed (hr : Rearranged base F k T A A' s s') (h : F.Indexed k s) :
    F.Indexed (k + 1) s' := fun j i hkj hi => by
  rw [hr.index j i hi (by omega), h j i (by omega) hi]

theorem Bodies.startsLoop_unique (h : Bodies base lo F) {l : Nat} (hk : k < F.ends.length)
    (hl : l < F.ends.length) (h1 : F.StartsLoop k j) (h2 : F.StartsLoop l j) : k = l := by
  obtain ⟨-, hd, ho⟩ := h1
  obtain ⟨-, hd', ho'⟩ := h2
  refine h.blockEnds.lastOf_inj hk hl ?_
  rcases ho with ho | ho <;> rcases ho' with ho' | ho' <;>
    exact h.wellFormed.start_unique ho ho' (by simp) (by simp) hd hd'

theorem Awaiting.untouched_start (hb : Bodies base lo F) (h : Awaiting base F k A s)
    (hk : k < F.ends.length) (hs : F.StartsLoop k j) (hn : base.node (F.exit j) = .jump kind t false) :
    Untouched base F A s j := by
  have hjk := hs.1
  refine h.start j (by omega) kind t hn fun l hl hs' => ?_
  have := hb.startsLoop_unique hk (by omega) hs hs'
  omega

theorem succeeds_blockBefore (h : Bodies base lo F) {post : NodeId → Work Unit → Prop}
    (hbody : F.blocks[j + 1]? = some body) (hstart : F.blocks[j]? = some start) (hpost : post start w) :
    Succeeds (blockBefore F.blocks body) w post := by
  have hidx : F.blocks.idxOf? body = some (j + 1) := by
    obtain ⟨hlt, hget⟩ := List.getElem?_eq_some_iff.mp hbody
    rw [← hget]
    refine List.idxOf?_eq_some_iff.mpr ⟨hlt, by simp, fun m hm he => ?_⟩
    have := h.nodup.getElem_inj_iff.mp he
    omega
  unfold blockBefore
  rw [hidx]
  refine succeeds_atPosition ?_ hpost
  rw [show ((j + 1 : Nat) : Int) - 1 = (j : Int) by omega, at?_ofNat, hstart]

/-- The exits of the two ends of a loop change places, and the one that comes to the end leads to
the block in front of the body. -/
theorem succeeds_enterLoop (h : Bodies base lo F) (hA : Arranged base F A w.store)
    (hP : Awaiting base F k A w.store) (hk : k < F.ends.length) (hs : F.StartsLoop k j) {kind' : JumpKind}
    {closes : Bool} (hi : F.blocks[k]? = some i) (hstart : F.blocks[j]? = some start)
    (hn : base.node (F.exit j) = .jump kind t false) :
    Succeeds (do exchangeExits start i; setNode (F.exit j) (.jump kind' x closes)) w fun _ w' =>
      ∃ A', Rearranged base F k (fun m => m = k ∨ m = j) A A' w.store w'.store := by
  have hjk := hs.1
  have hj : j < F.ends.length := by omega
  obtain ⟨y, e, hcell⟩ := hA.block j start hstart
  obtain ⟨y', e', hcell'⟩ := hA.block k i hi
  obtain ⟨n, hexit, hisn, -⟩ := hA.exit j hj
  obtain ⟨m, hexit', hism, -⟩ := hA.exit k hk
  have hne : start ≠ i := by
    rintro rfl
    exact absurd (h.block_inj hstart hi) (by omega)
  refine (succeeds_exchangeExits hcell hcell' hexit hexit' hne
    (fun he => absurd (hA.inj j k hj hk he) (by omega)) hisn hism).next fun _ w' hx => ?_
  have hr := hA.rearrange_exchange h hj hk (by omega) hstart hi (congrArg Cell.node hexit)
    (congrArg Cell.node hexit') hx hcell
  have hplace : (A.exchange j k).exit k = F.exit j :=
    (A.exchange_right j k).trans (hP.untouched_start h hk hs hn).1
  rw [← hplace]
  exact succeeds_modifyStore ⟨_, hr.trans ((hr.arranged.rearrange_setExit h hk rfl .jump).mono fun _ => .inl)⟩

theorem Bodies.leads (h : Bodies base lo F) (hk : k + 1 < F.ends.length) :
    Leads (BlockStarts F.ends F.blocks) (wayFrom F.p.instructions (lastOf F.ends k))
      (base.node (F.exit k)) := by
  obtain ⟨n, hcell, hleads, -⟩ := h.shown k hk
  rwa [Store.node, hcell]

theorem Bodies.exists_block (h : Bodies base lo F) (hk : k < F.ends.length) :
    ∃ i, F.blocks[k]? = some i :=
  ⟨_, List.getElem?_eq_getElem (h.length ▸ hk)⟩

theorem Bodies.starts_eq (h : Bodies base lo F) (hi : F.blocks[k]? = some i)
    (hs : BlockStarts F.ends F.blocks (firstOf F.ends k) t) : t = i :=
  (hs.eq_iff h.blockEnds h.nodup h.length hi).mpr rfl

section
variable (h : Bodies base lo F) (hA : Arranged base F A w.store) (hP : Awaiting base F k A w.store)
  (hk : k < F.ends.length) (hi : F.blocks[k]? = some i)
  (hbody : BlockStarts F.ends F.blocks ((destinationAt F.p.instructions (lastOf F.ends k)).getD b) body)
include h hA hP hk hi hbody

/-- Both moves look at the way into the loop, and differ in what they ask of it. -/
theorem succeeds_moveTest {next : NodeId → Block → Node → Edit Unit} (hs : F.StartsLoop k j)
    (hn : base.node (F.exit j) = .jump kind t false)
    (hnext : F.blocks[j + 1]? = some body → ∀ start b, next start b (.jump kind t false) =
      do exchangeExits start i; setNode b.exit (.jump .jump start false)) :
    Succeeds (do
      let start ← blockBefore F.blocks body
      let b ← block start
      next start b (← node b.exit)) w fun _ w' =>
      ∃ A', Rearranged base F k (fun m => m = k ∨ m = j) A A' w.store w'.store := by
  have hjk := hs.1
  rw [hs.2.1, Option.getD_some] at hbody
  obtain ⟨start, hstart⟩ := h.exists_block (show j < F.ends.length by omega)
  obtain ⟨b, hb⟩ := h.exists_block (show j + 1 < F.ends.length by omega)
  obtain rfl := h.starts_eq hb hbody
  obtain ⟨y, e, hblock⟩ := hA.block j start hstart
  obtain ⟨hplace : (A.row F j y e).exit = _, hcell⟩ := hP.untouched_start h hk hs hn
  refine (succeeds_blockBefore h hb hstart ?_).bind
  refine (succeeds_block (congrArg Cell.node hblock) ?_).bind
  refine (succeeds_node ?_).bind
  rw [Store.node, hplace, hcell, show (base.cell _).node = _ from hn, hnext hb, hplace]
  exact succeeds_enterLoop h hA hP hk hs hi hstart hn

theorem succeeds_moveIteratorTest
    (hend : (opAt F.p.instructions (lastOf F.ends k)).any isIteratorEnd = true) :
    ∃ j, F.StartsLoop k j ∧ Succeeds (moveIteratorTest F.blocks i body) w fun _ w' =>
      ∃ A', Rearranged base F k (fun m => m = k ∨ m = j) A A' w.store w'.store := by
  obtain ⟨o, ho, hend⟩ := (Option.any_eq_true ..).mp hend
  rw [eq_iterl hend (h.wellFormed.compiled.at ho)] at ho
  obtain ⟨j, hjk, hway, hto⟩ := h.wellFormed.iterate_start h.blockEnds hk ho
  have hs : F.StartsLoop k j := ⟨hjk, hto, .inr ho⟩
  have hleads := h.leads (show j + 1 < F.ends.length by omega)
  rw [hway] at hleads
  generalize hn : base.node (F.exit j) = n at hleads
  cases hleads with
  | jump ht =>
    cases h.starts_eq hi ht
    exact ⟨j, hs, succeeds_moveTest h hA hP hk hi hbody hs hn fun _ _ _ => by simp [require]⟩

theorem succeeds_moveNumericTest
    (hend : (opAt F.p.instructions (lastOf F.ends k)).any isCountEnd = true) :
    ∃ j, F.StartsLoop k j ∧ Succeeds (moveNumericTest F.blocks i body) w fun _ w' =>
      ∃ A', Rearranged base F k (fun m => m = k ∨ m = j) A A' w.store w'.store := by
  obtain ⟨o, ho, hend⟩ := (Option.any_eq_true ..).mp hend
  rw [eq_forl hend (h.wellFormed.compiled.at ho)] at ho
  obtain ⟨j, hjk, hway, hto⟩ := h.wellFormed.count_start h.blockEnds ho
  have hs : F.StartsLoop k j := ⟨hjk, hto, .inl ho⟩
  have hleads := h.leads (show j + 1 < F.ends.length by omega)
  rw [hway] at hleads
  generalize hn : base.node (F.exit j) = n at hleads
  cases hleads with
  | flow ht =>
    exact ⟨j, hs, succeeds_moveTest h hA hP hk hi hbody hs hn fun hb _ _ => by
      cases h.starts_eq hb ht; simp [require]⟩

end

/-! ## Returns that move -/

/-- A path on which block `j` stands behind block `k` only, and `k` before `j` only. -/
inductive OnlyBehind (j k : Nat) : List Nat → Prop
  | nil : OnlyBehind j k []
  | skip {m path} : m ≠ j → m ≠ k → OnlyBehind j k path → OnlyBehind j k (m :: path)
  | both {path} : k ≠ j → OnlyBehind j k path → OnlyBehind j k (k :: j :: path)

theorem OnlyBehind.flatMap_moveTo {path : List Nat} (hcontents : A.contents j = [x])
    (h : OnlyBehind j k path) : path.flatMap (A.moveTo j k x a).contents = path.flatMap A.contents := by
  induction h with
  | nil => rfl
  | skip hj hk _ ih => rw [List.flatMap_cons, ih]; simp [Arrangement.moveTo, hj, hk]
  | both hne _ ih =>
    rw [List.flatMap_cons, List.flatMap_cons, ih]
    simp [Arrangement.moveTo, hne, hcontents]

/-- Moving a return changes nothing on paths on which its block stands behind the jump only. -/
theorem succeeds_moveReturn (h : Bodies base lo F) (hA : Arranged base F A w.store) (hk : k < F.ends.length)
    {next : NodeId} (hi : F.blocks[k]? = some i) (ht : F.blocks[j]? = some t)
    (hexit : w.store.node (A.exit k) = .jump kind t closes) (hlast : F.exitAddress k = lastOf F.ends k) :
    Succeeds (moveReturn i next) w fun _ w' => ∃ A', Rearranged base F k (· = k) A A' w.store w'.store ∧
      ∀ path, OnlyBehind j k path → path.flatMap A'.contents = path.flatMap A.contents := by
  have hj : j < F.ends.length := h.length ▸ (List.getElem?_eq_some_iff.mp ht).1
  obtain ⟨y, e, hcell⟩ := hA.block k i hi
  obtain ⟨y', e', hcell'⟩ := hA.block j t ht
  refine (succeeds_block (congrArg Cell.node hcell) ?_).bind
  refine (succeeds_node ?_).bind
  rw [show w.store.node _ = _ from hexit]
  refine (succeeds_items_block (congrArg Cell.node hcell') ?_).bind
  dsimp only
  split
  case h_2 => exact .pure ⟨A, .refl hA, fun _ _ => rfl⟩
  case h_1 x hcontents =>
    obtain ⟨a, hx⟩ := hA.lines j hj x (by rw [hcontents]; exact List.mem_cons_self)
    have hin : x.index < w.store.cells.size := Nat.lt_of_lt_of_le (h.lines.inside hx).2 hA.size
    refine (succeeds_node ?_).bind
    split
    case h_2 => exact .pure ⟨A, .refl hA, fun _ _ => rfl⟩
    case h_1 vs hret =>
      have hret' : base.node x = .ret vs := by
        rw [Store.node, hA.line hx] at hret
        exact hret
      have hmove := succeeds_moveStatement hcell hcell' hin
        (h.line_ne hx hi) (h.line_ne hx ht)
      have hseq : (do
          appendItem i x
          setAddress x (← block i).last
          setItems t []
          setNode (A.exit k) (.jump .flow next closes) : Edit Unit) =
          (do
            appendItem i x
            setAddress x (← block i).last
            setItems t []) >>= fun _ => setNode (A.exit k) (.jump .flow next closes) := by
        simp only [bind_assoc]
      rw [hseq]
      refine hmove.next fun _ w' hm => succeeds_modifyStore ?_
      have hmoved : Rearranged base F k (· = k) A _ w.store w'.store :=
        hA.rearrange_moveTo h hj hi ht hcontents hlast hm hret' hcell'
      exact ⟨_, hmoved.trans (hmoved.arranged.rearrange_setExit h hk rfl .jump),
        fun _ => OnlyBehind.flatMap_moveTo hcontents⟩

/-- A test and a jump that closes upvalues lead to the same return. -/
def sharedReturn : Prototype := ofCode [
  withAD .istc 1 0, withAD .jmp 2 2, withAD .uclo 0 1, withAD .ret0 0 1, withAD .ret1 0 2]

/-- The return moves before the jump. A run that takes the test's way to block 4 does not meet it any
more. -/
theorem moved_return_is_missed :
    Throughout WellFormed sharedReturn ∧ ((Lift.lift sharedReturn).run' {}).1 = .ok ⟨18⟩ ∧
      let s := ((Lift.lift sharedReturn).run' {}).2
      let t := ((Flow.moveLoopTests ⟨18⟩).run' s).2
      (∀ u ∈ [s.node, t.node], (u ⟨1⟩).fields = [⟨7⟩] ∧ (u ⟨7⟩).fields = [⟨6⟩, ⟨2⟩, ⟨4⟩]) ∧
      s.node ⟨15⟩ = .ret ⟨14⟩ ∧ (s.node ⟨4⟩).items = [⟨15⟩] ∧ (t.node ⟨4⟩).items = [] :=
  ⟨throughout_ofCode (by decide), by decide +kernel, by decide +kernel⟩

/-! ## Blocks that are added -/

/-- A block that has been added behind the nodes of `base`. It has no addresses. -/
structure AddedBlock (base s : Store) (t : NodeId) (b : Block) : Prop where
  cell : s.cell t = ⟨.block b, none, false⟩
  exit : ∃ x, s.cell b.exit = ⟨.jump .flow x false, none, false⟩
  contents : ∃ y, b.contents = [y] ∧ (s.cell y).address = none ∧ Plain s 3 y ∧
    (s.node y).isStatement = true ∧ base.cells.size ≤ y.index
  above : base.cells.size ≤ t.index ∧ base.cells.size ≤ b.exit.index

theorem AddedBlock.keep {b : Block} (h : AddedBlock base s t b)
    (ha : Alters (fun i => i.index < base.cells.size) s s') (hk : Keeps s s') : AddedBlock base s' t b := by
  obtain ⟨x, hx⟩ := h.exit
  obtain ⟨y, hy, hyq, hplain, hyst, hyab⟩ := h.contents
  refine ⟨?_, ⟨x, ?_⟩, ⟨y, hy, ?_, hplain.keep hk (Nat.le_refl _), ?_, hyab⟩, h.above⟩
  · rw [ha.cell t (inside_of_cell h.cell (by simp)) (by have := h.above.1; omega), h.cell]
  · rw [ha.cell b.exit (inside_of_cell hx (by simp)) (by have := h.above.2; omega), hx]
  · rw [hk y hplain.inner, hyq]
  · rw [hk.node hplain.inner, hyst]

theorem succeeds_add_plain {n : Node} {d : Nat} (hi : isInner n = true) (hfit : PartsFit w.store n)
    (hc : ∀ c ∈ n.children, Quiet w.store c ∧ Plain w.store d c) :
    Succeeds (add n) w fun x w' => Grows w.store w'.store ∧ w.store.cells.size ≤ x.index ∧
      w'.store.cell x = ⟨n, none, false⟩ ∧ Plain w'.store (d + 1) x := by
  have hg := grows_push w.store ⟨n, none, false⟩
  have hcell : (Store.mk (w.store.cells.push ⟨n, none, false⟩)).cell ⟨w.store.cells.size⟩ = _ :=
    cell_push_self
  refine succeeds_addCell ⟨hg, Nat.le_refl _, hcell, ?_⟩
  rw [Plain, Store.node, hcell]
  refine ⟨hi, hfit.congr (.inl hi) fun c hm => hg.keeps.node (hc c hm).2.inner, fun c hm => ?_⟩
  rw [Quiet, Store.node, hg.keeps c (hc c hm).2.inner]
  exact ⟨(hc c hm).1, (hc c hm).2.keep hg.keeps (Nat.le_refl _)⟩

theorem succeeds_selfAssignment {after : Block} {slot : Int} {target : NodeId}
    (hslot : 0 ≤ slot) (hsize : base.cells.size ≤ w.store.cells.size) :
    Succeeds (selfAssignment after slot target) w fun t w' =>
      Grows w.store w'.store ∧ ∃ b, AddedBlock base w'.store t b := by
  have hquiet : ∀ {s : Store} {i : NodeId} {n : Node}, s.cell i = ⟨n, none, false⟩ → Quiet s i :=
    fun h => .inl (congrArg Cell.address h)
  have hleaf : ∀ {s : Store}, PartsFit s (.identifier { kind := .slot, slot }) := fun {s} =>
    ⟨{}, by simp [partRule, demand, hslot, bind, Except.bind, pure, Except.pure], by simp [Node.children]⟩
  refine succeeds_add_new.next ?_
  rintro x0 w0 ⟨hg0, hx0, hexit⟩
  refine (succeeds_add_plain (d := 0) rfl hleaf (by simp [Node.children])).next ?_
  rintro x1 w1 ⟨hg1, -, hx1, hp1⟩
  refine (succeeds_add_plain (d := 1) rfl (.ofGeneral (f := Node.isVariable) rfl ?_) ?_).next ?_
  · simp [Node.children, Store.node, hx1, Node.isVariable]
  · simpa [Node.children] using ⟨hquiet hx1, hp1⟩
  rintro x2 w2 ⟨hg2, -, hx2, hp2⟩
  refine (succeeds_add_plain (d := 0) rfl hleaf (by simp [Node.children])).next ?_
  rintro x3 w3 ⟨hg3, -, hx3, hp3⟩
  refine (succeeds_add_plain (d := 1) rfl (.ofGeneral (f := Node.isExpression) rfl ?_) ?_).next ?_
  · simp [Node.children, Store.node, hx3, Node.isExpression]
  · simpa [Node.children] using ⟨hquiet hx3, hp3⟩
  rintro x4 w4 ⟨hg4, -, hx4, hp4⟩
  have hx2' : w4.store.cell x2 = _ := ((hg3.trans hg4).keeps x2 hp2.inner).trans hx2
  have hp2' := hp2.keep (hg3.trans hg4).keeps (Nat.le_refl _)
  refine (succeeds_add_plain (d := 2) rfl (partsFit_assignment ?_ (congrArg Cell.node hx2')) ?_).next ?_
  · rw [Store.node, hx4]
    rfl
  · simpa [Node.children] using ⟨⟨hquiet hx4, hp4⟩, hquiet hx2', hp2'⟩
  rintro x5 w5 ⟨hg5, hx5le, hx5, hp5⟩
  have hg : Grows w0.store w5.store := hg1.trans (hg2.trans (hg3.trans (hg4.trans hg5)))
  refine succeeds_add_new.mono ?_
  rintro t w6 ⟨hg6, ht, hcell⟩
  refine ⟨hg0.trans (hg.trans hg6), _, hcell, ?_, ?_, ?_⟩
  · exact ⟨target, by rw [(hg.trans hg6).cell x0 (inside_of_cell hexit (by simp)), hexit]⟩
  · have := (hg0.trans (hg1.trans (hg2.trans (hg3.trans hg4)))).size
    refine ⟨x5, rfl, ?_, hp5.keep hg6.keeps (Nat.le_refl _), ?_, by omega⟩
    · rw [hg6.keeps x5 hp5.inner, hx5]
    · rw [hg6.keeps.node hp5.inner, Store.node, hx5]
      rfl
  · have := (hg0.trans hg).size
    exact ⟨by omega, by dsimp only; omega⟩

/-! ## All rounds -/

/-- What is left to be done from block `k` on can be done. -/
structure Ready (base : Store) (F : Frame) (k : Nat) (A : Arrangement) (s : Store) : Prop where
  arranged : Arranged base F A s
  awaiting : Awaiting base F k A s
  indexed : F.Indexed k s

theorem Bodies.getLast_ne (h : Bodies base lo F) (hk : k + 1 < F.ends.length)
    (hi : F.blocks[k]? = some i) : F.blocks.getLast? ≠ some i := by
  intro hlast
  rw [List.getLast?_eq_getElem?] at hlast
  have := h.block_inj hi hlast
  have := h.length
  omega

theorem BlockStarts.mem {blocks : List NodeId} (h : BlockStarts ends blocks a t) : t ∈ blocks := by
  obtain ⟨j, hj, -⟩ := h
  exact List.mem_of_getElem? hj

theorem Arranged.exit_inside_base (h : Bodies base lo F) (hA : Arranged base F A s)
    (hk : k < F.ends.length) : (A.exit k).index < base.cells.size := by
  obtain ⟨j, hj, he⟩ := hA.perm k hk
  rw [he]
  refine inside_of_node fun hn => ?_
  have := h.exit_node hj
  rw [hn] at this
  cases this

theorem exitAddress_of_jump (hk : k + 1 < F.ends.length)
    (hf : folded F.p.instructions (lastOf F.ends k) = 1) : F.exitAddress k = lastOf F.ends k := by
  rw [Frame.exitAddress, if_neg (by omega), stopOf, if_neg (by omega), hf]
  omega

/-- What the round of block `k` does; `r` is the block that it adds. -/
structure Round (base : Store) (F : Frame) (k : Nat) (s : Store) (r : Option NodeId) (s' : Store) : Prop where
  ready : ∃ A', Ready base F (k + 1) A' s'
  alters : Alters (F.Moves base) s s'
  keeps : Keeps s s'
  added : ∀ t, r = some t → ∃ b, AddedBlock base s' t b

theorem Ready.round (h : Ready base F k A s) (hr : Rearranged base F k T A A' s s')
    (hT : ∀ m, T m → F.StartsLoop k m ∨ (m = k ∧ ∀ kind t, base.node (F.exit k) ≠ .jump kind t false))
    {r : Option NodeId} (hadd : ∀ t, r = some t → ∃ b, AddedBlock base s' t b) :
    Round base F k s r s' :=
  ⟨⟨A', hr.arranged, h.awaiting.next hr hT, hr.indexed h.indexed⟩, hr.alters, hr.keeps, hadd⟩

/-- The round of block `k` when the block has got its index. -/
structure InRound (base : Store) (F : Frame) (k : Nat) (A : Arrangement) (s s' : Store) : Prop where
  ready : Ready base F k A s
  indexed : Rearranged base F k (fun _ => False) A A s s'
  exit : s'.node (A.exit k) = base.node (F.exit k)

theorem InRound.same (h : InRound base F k A s s') : Round base F k s none s' :=
  h.ready.round h.indexed (fun _ hf => hf.elim) nofun

theorem InRound.round (h : InRound base F k A s s') (hr : Rearranged base F k T A A' s' s'')
    (hn : ∀ kind t, base.node (F.exit k) ≠ .jump kind t false)
    (hT : ∀ m, T m → F.StartsLoop k m ∨ m = k) {r : Option NodeId}
    (hadd : ∀ t, r = some t → ∃ b, AddedBlock base s'' t b) : Round base F k s r s'' :=
  h.ready.round ((h.indexed.mono fun _ hf => hf.elim).trans hr)
    (fun m hm => (hT m hm).imp_right fun he => ⟨he, hn⟩) hadd

/-- The round of a block that ends a loop. -/
theorem succeeds_loopRound {move : Edit Unit} (hE : InRound base F k A s w.store)
    (hn : ∀ kind t, base.node (F.exit k) ≠ .jump kind t false)
    (h : ∃ j, F.StartsLoop k j ∧ Succeeds move w fun _ w' =>
      ∃ A', Rearranged base F k (fun m => m = k ∨ m = j) A A' w.store w'.store) :
    Succeeds (do move; return none) w fun r w' => Round base F k s r w'.store := by
  obtain ⟨j, hs, hmove⟩ := h
  refine hmove.next fun _ w' ⟨A', hr⟩ => .pure (hE.round hr hn ?_ nofun)
  rintro m (rfl | rfl)
  · exact .inr rfl
  · exact .inl hs

/-- The round of a block that ends in a jump that closes over variables. -/
theorem succeeds_closingRound (h : Bodies base lo F) (hE : InRound base F k A s w.store)
    (hk : k + 1 < F.ends.length) (hi : F.blocks[k]? = some i) (ht : t ∈ F.blocks)
    (hn : base.node (F.exit k) = .jump kind t true)
    (hfold : folded F.p.instructions (lastOf F.ends k) = 1) :
    Succeeds (do
      require (F.blocks.getLast? != some i) "a jump is not the end of a function"
      moveReturn i (← atPosition F.blocks ((k : Int) + 1))
      return none) w fun r w' => Round base F k s r w'.store := by
  obtain ⟨next, hnext⟩ := h.exists_block hk
  refine (succeeds_require (by simpa using h.getLast_ne hk hi) ?_).bind
  refine (succeeds_atPosition (x := next) ?_ ?_).bind
  · rw [show (k : Int) + 1 = ((k + 1 : Nat) : Int) by omega, at?_ofNat, hnext]
  obtain ⟨j, ht⟩ := List.mem_iff_getElem?.mp ht
  refine (succeeds_moveReturn h hE.indexed.arranged (by omega) hi ht (hE.exit.trans hn)
    (exitAddress_of_jump hk hfold)).next fun _ w' ⟨A', hr, _⟩ => .pure (hE.round hr ?_ ?_ nofun)
  · simp [hn]
  · exact fun m hm => .inr hm

/-- The round of a block with a test whose branches both lead to the next block. -/
theorem succeeds_branchRound (h : Bodies base lo F) (hE : InRound base F k A s w.store)
    (hk : k < F.ends.length) {b c : Block} {shift tested : Int} {slot : Option Int}
    (hb : w.store.node i = .block b) (hc : w.store.node t = .block c)
    (hindex : c.index = b.index - shift + 1) (hslot : 0 ≤ tested)
    (hn : base.node (F.exit k) = .test x t t slot) :
    Succeeds (do
      let b ← block i
      require ((← block t).index == b.index - shift + 1)
        "a test without branches leads to the next block"
      let added ← selfAssignment b tested t
      setNode (A.exit k) (.test x added t slot)
      return some added) w fun r w' => Round base F k s r w'.store := by
  have hA := hE.indexed.arranged
  refine (succeeds_block hb ?_).bind
  refine (succeeds_block hc ?_).bind
  refine (succeeds_require (by simp [hindex]) ?_).bind
  refine (succeeds_selfAssignment hslot hA.size).next fun added w2 ⟨hg, bl, hadd⟩ => ?_
  have hr : Rearranged base F k (· = k) A A w.store w2.store := hA.rearrange_grow h hg
  have hparts : ExitParts base (.test x added t slot) := by
    obtain ⟨n, hcell, -, hparts⟩ := hr.arranged.exit k hk
    have : n = .test x t t slot := by
      rw [← hn, ← hE.exit, Store.node, ← hg.cell _ (hA.exit_inside hk), hcell]
    rwa [this] at hparts
  have hr' := hr.arranged.rearrange_setExit h hk rfl hparts
  refine (succeeds_modifyStore (.pure (hE.round (hr.trans hr') (by simp [hn]) (fun _ => .inr) ?_))).bind
  rintro _ ⟨⟩
  exact ⟨bl, hadd.keep (alters_setNode (hA.exit_inside_base h hk)) hr'.keeps⟩

/-- At the start of a round the block gets its index. -/
theorem Ready.enter (h : Bodies base lo F) (hR : Ready base F k A s) (hk : k < F.ends.length)
    (hi : F.blocks[k]? = some i) (shift : Int) : ∃ e, s.node i = .block (A.row F k k e) ∧
      InRound base F k A s (s.setNode i (.block (A.row F k (k + shift) e))) := by
  obtain ⟨y, e, hcell⟩ := hR.arranged.block k i hi
  obtain rfl : y = k := by
    have := hR.indexed k i (Nat.le_refl _) hi
    rw [Store.node, hcell] at this
    exact Option.some.inj this
  obtain ⟨hplace, hexit⟩ := hR.awaiting.exit k (Nat.le_refl _) hk
  have hr : Rearranged base F k (fun _ => False) A A s _ :=
    hR.arranged.rearrange_setIndex h hi (k + shift) e
  exact ⟨e, congrArg Cell.node hcell, hR, hr, by
    rw [Store.node, (hr.exit k hk id).2, hplace, hexit, Store.node]⟩

/-- One round, by the kind of the exit. -/
theorem succeeds_rearrange (h : Bodies base lo F) (hR : Ready base F k A w.store)
    (hk : k < F.ends.length) (hi : F.blocks[k]? = some i) (shift : Int) :
    Succeeds (rearrange F.blocks k i shift) w fun r w' => Round base F k w.store r w'.store := by
  obtain ⟨e, hnode, hE⟩ := hR.enter h hk hi shift
  refine (succeeds_block hnode ?_).bind
  refine (succeeds_modifyBlock hnode ?_).bind
  have hnode1 := congrArg Cell.node (cell_setNode_self (s := w.store)
    (n := .block (A.row F k (k + shift) e)) (hR.arranged.block_inside hi))
  generalize w.store.setNode i _ = s1 at hE hnode1
  have hr := hE.indexed
  have haw := hR.awaiting.same hr
  refine (succeeds_node ?_).bind
  rw [show Store.node _ _ = _ from hE.exit]
  by_cases hlast : k + 1 = F.ends.length
  · have hstop : base.node (F.exit k) = .stop .absent := by
      rw [show k = F.ends.length - 1 by omega, Store.node, h.final]
    rw [hstop]
    exact .pure hE.same
  have hk1 : k + 1 < F.ends.length := by omega
  have hleads := h.leads hk1
  have hway := wayBehind_wayFrom F.p.instructions (lastOf F.ends k)
  generalize hn : base.node (F.exit k) = n at hleads
  generalize wayFrom F.p.instructions (lastOf F.ends k) = way at hleads hway
  cases hleads with
  | flow => exact .pure hE.same
  | @jump _ t closes ht =>
    cases hway with
    | jump hfold =>
      generalize decide (opAt F.p.instructions (lastOf F.ends k) = some .uclo) = closes at *
      cases closes with
      | false => exact .pure hE.same
      | true => exact succeeds_closingRound (w := ⟨s1, w.own⟩) h hE hk1 hi ht.mem hn hfold
  | @test a b t f c slot ht hf =>
    dsimp only
    split
    · exact .pure hE.same
    · rename_i hcond
      simp only [bne_iff_ne, ne_eq, Bool.or_eq_true, decide_eq_true_eq, not_or, not_not,
        Int.not_lt] at hcond
      obtain ⟨rfl, hslot⟩ := hcond
      obtain ⟨next, hnext⟩ := h.exists_block hk1
      obtain rfl : t = next := by
        cases hway
        exact h.starts_eq hnext (by rw [firstOf_succ]; exact ht)
      obtain ⟨y', e', hcell'⟩ := hr.arranged.block (k + 1) t hnext
      have hy' : y' = k + shift - shift + 1 := by
        have := hr.indexed hR.indexed (k + 1) t (Nat.le_refl _) hnext
        rw [Store.node, hcell'] at this
        have := Option.some.inj this
        push_cast at this
        omega
      exact succeeds_branchRound (w := ⟨s1, w.own⟩) h hE hk hnode1 (congrArg Cell.node hcell') hy'
        hslot hn
  | iterate ht ho =>
    cases hway with
    | iterate hend =>
      exact succeeds_loopRound (w := ⟨s1, w.own⟩) hE (by simp [hn])
        (succeeds_moveIteratorTest h hr.arranged haw hk hi ht hend)
  | count ht ho =>
    cases hway with
    | count hend =>
      exact succeeds_loopRound (w := ⟨s1, w.own⟩) hE (by simp [hn])
        (succeeds_moveNumericTest h hr.arranged haw hk hi ht hend)

/-- What rearranging does to the list of the blocks: blocks are added to it. -/
structure Extended (base : Store) (s : Store) (blocks result : List NodeId) : Prop where
  old : result.filter (·.index < base.cells.size) = blocks
  new : ∀ t ∈ result, base.cells.size ≤ t.index → ∃ b, AddedBlock base s t b

theorem succeeds_rearrangeFrom (h : Bodies base lo F) {rest : List NodeId}
    (hrest : F.blocks.drop k = rest) (hR : Ready base F k A w.store) (shift : Int) :
    Succeeds (rearrangeFrom F.blocks k shift rest) w fun r w' =>
      (∃ A', Arranged base F A' w'.store) ∧ Alters (F.Moves base) w.store w'.store ∧
      Keeps w.store w'.store ∧ Extended base w'.store rest r := by
  induction rest generalizing k A w shift with
  | nil => exact .pure ⟨⟨A, hR.arranged⟩, .refl _ _, fun _ _ => rfl, by simp, by simp⟩
  | cons i rest ih =>
    have hi : F.blocks[k]? = some i := by
      rw [← List.head?_drop, hrest, List.head?_cons]
    have hk : k < F.ends.length := h.length ▸ (List.getElem?_eq_some_iff.mp hi).1
    have hdrop : F.blocks.drop (k + 1) = rest := by
      rw [← List.tail_drop, hrest, List.tail_cons]
    have hin : i.index < base.cells.size := h.part_inside (.inl (List.mem_of_getElem? hi))
    refine (succeeds_rearrange h hR hk hi shift).next fun r w1 hround => ?_
    obtain ⟨A1, hR1⟩ := hround.ready
    cases r with
    | none =>
      refine (ih hdrop hR1 shift).next fun r w2 ⟨hA2, ha2, hk2, hext⟩ => .pure ?_
      refine ⟨hA2, hround.alters.trans ha2, hround.keeps.trans hk2, ?_, ?_⟩
      · rw [List.filter_cons_of_pos (by simpa using hin), hext.old]
      · intro t ht hle
        rcases List.mem_cons.mp ht with rfl | ht
        · omega
        · exact hext.new t ht hle
    | some added =>
      obtain ⟨b, hadd⟩ := hround.added added rfl
      refine (ih hdrop hR1 (shift + 1)).next fun r w2 ⟨hA2, ha2, hk2, hext⟩ => .pure ?_
      refine ⟨hA2, hround.alters.trans ha2, hround.keeps.trans hk2, ?_, ?_⟩
      · rw [List.filter_cons_of_pos (by simpa using hin), List.filter_cons_of_neg, hext.old]
        simpa using hadd.above.1
      · intro t ht hle
        rcases List.mem_cons.mp ht with rfl | ht
        · omega
        · rcases List.mem_cons.mp ht with rfl | ht
          · exact ⟨b, hadd.keep (ha2.mono fun i _ hm => h.part_inside hm.part) hk2⟩
          · exact hext.new t ht hle

theorem Bodies.ready (h : Bodies base lo F) (hsize : base.cells.size ≤ s.cells.size)
    (hsame : ∀ i, F.Part i → s.cell i = base.cell i) : Ready base F 0 (F.arrangement base) s := by
  have huntouched : ∀ j < F.ends.length, Untouched base F (F.arrangement base) s j :=
    fun j hj => ⟨rfl, hsame _ (.inr (.inl ⟨j, hj, rfl⟩))⟩
  refine ⟨h.arranged hsize hsame, ⟨fun j _ hj => huntouched j hj, fun j hj _ _ _ _ => huntouched j hj⟩,
    fun k i _ hi => ?_⟩
  obtain ⟨e, hcell⟩ := h.block k i hi
  rw [Store.node, hsame i (.inl (List.mem_of_getElem? hi)), hcell]
  rfl

/-- The exits of a function can be rearranged. -/
theorem succeeds_rearrangeAll (h : Bodies base lo F) (hsize : base.cells.size ≤ w.store.cells.size)
    (hsame : ∀ i, F.Part i → w.store.cell i = base.cell i) :
    Succeeds (rearrangeFrom F.blocks 0 0 F.blocks) w fun r w' =>
      (∃ A, Arranged base F A w'.store) ∧ Alters (F.Moves base) w.store w'.store ∧
      Keeps w.store w'.store ∧ Extended base w'.store F.blocks r :=
  succeeds_rearrangeFrom h rfl (h.ready hsize hsame) 0

end LuaLift.Proofs
