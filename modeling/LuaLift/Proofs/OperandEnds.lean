import LuaLift.Proofs.JoinedOperands
import LuaLift.Proofs.Succeeding

/-! # Where operands end

Taking a condition apart looks at where its blocks lead. Each look has one result, which the
positions of the blocks tell, so a run is followed forward: it succeeds or it fails (`SucceedsIf`).
The end of an operand is found at its first block, or where a run of blocks that lead to one exit
ends. -/
namespace LuaLift.Proofs
open Tree Flow

/-! ## Steps that succeed or fail -/

section
variable {σ α β : Type} {p : Pass σ α} {f : α → Pass σ β} {w w' : Work σ} {a : α} {ok ok' : Bool}
  {Q : α → Prop} {R : β → Prop}

def Fails (p : Pass σ α) (w : Work σ) : Prop := ∃ e w', p w = .error e w'

/-- A step succeeds if `ok` holds and fails otherwise. If it succeeds the store has only grown. -/
def SucceedsIf (ok : Bool) (p : Pass σ α) (w : Work σ) (Q : α → Prop) : Prop :=
  if ok then Succeeds p w fun a w' => Grows w.store w'.store ∧ Q a else Fails p w

theorem Returns.step (h : Returns p w a w') : (p >>= f) w = f a w' := by
  change EStateM.bind p f w = _
  rw [EStateM.bind, show p w = .ok a w' from h]

theorem Returns.fails (h : Returns p w a w') (hf : Fails (f a) w') : Fails (p >>= f) w := by
  rwa [Fails, h.step]

theorem Fails.bind (h : Fails p w) : Fails (p >>= f) w := by
  obtain ⟨e, w', h⟩ := h
  refine ⟨e, w', ?_⟩
  change EStateM.bind p f w = _
  rw [EStateM.bind, h]

theorem Fails.not_returns (h : Fails p w) : ¬ Returns p w a w' := by
  obtain ⟨e, w'', h⟩ := h
  rw [Returns, h]
  nofun

theorem SucceedsIf.mono {Q' : α → Prop} (h : SucceedsIf ok p w Q) (hQ : ∀ a, Q a → Q' a) :
    SucceedsIf ok p w Q' := by
  cases ok with
  | false => exact h
  | true => exact Succeeds.mono h fun a w' ha => ⟨ha.1, hQ a ha.2⟩

theorem SucceedsIf.ofEq {p' : Pass σ α} (he : p w = p' w) (h : SucceedsIf ok p' w Q) :
    SucceedsIf ok p w Q := by
  unfold SucceedsIf Succeeds Fails Returns at *
  rwa [he]

theorem SucceedsIf.after (h : Returns p w a w) (hf : SucceedsIf ok (f a) w R) :
    SucceedsIf ok (p >>= f) w R := by
  cases ok with
  | false => exact h.fails hf
  | true => exact Succeeds.bind ⟨a, w, h, hf⟩

theorem SucceedsIf.bind (h : SucceedsIf ok p w Q)
    (hf : ok = true → ∀ a w', Grows w.store w'.store → Q a → SucceedsIf ok' (f a) w' R) :
    SucceedsIf (ok && ok') (p >>= f) w R := by
  cases ok with
  | false => exact Fails.bind h
  | true =>
    obtain ⟨a, w', hr, hg, ha⟩ := h
    have := hf rfl a w' hg ha
    cases ok' with
    | false => exact hr.fails this
    | true =>
      obtain ⟨b, w'', hr', hg', hb⟩ := this
      exact ⟨b, w'', hr.ofBind hr', hg.trans hg', hb⟩

theorem SucceedsIf.pure (h : Q a) : SucceedsIf true (Pure.pure a : Pass σ α) w Q :=
  ⟨a, w, rfl, .refl _, h⟩

end

/-! ## Looking at blocks -/

/-- A block holds statements and ends in an exit. -/
def BlockOf (s : Store) (i : NodeId) (held : List NodeId) (exit : Node) : Prop :=
  ∃ b, s.node i = .block b ∧ b.contents = held ∧ s.node b.exit = exit

/-- The block at position `k` tests a condition that satisfies `P`. It goes on with the next block, or
to position `j` if the test fails. -/
def Leaps (s : Store) (P : NodeId → Prop) (block : Nat → NodeId) (k j : Nat) : Prop :=
  ∃ held c slot, BlockOf s (block k) held (.test c (block (k + 1)) (block j) slot) ∧ P c

/-- Blocks that end before position `b`, with exits there and at `far`. -/
structure Stretch (s : Store) (block : Nat → NodeId) (last : Nat) (t : Terminators) (b far : Nat) : Prop where
  inOrder : InOrder s block last
  stop : t.stop = .absent
  exits : (t.yes = block b ∧ t.no = block far) ∨ (t.yes = block far ∧ t.no = block b)
  near : b < far
  bound : far ≤ last

section
variable {s : Store} {P : NodeId → Prop} {block : Nat → NodeId} {last : Nat} {w : Work Unit} {t : Terminators}
  {a b far i j k m start fuel : Nat} {x : NodeId} {held held' : List NodeId} {exit exit' : Node}

theorem BlockOf.det (h : BlockOf s x held exit)
    (h' : BlockOf s x held' exit') : held = held' ∧ exit = exit' := by
  obtain ⟨b, hb, rfl, rfl⟩ := h
  obtain ⟨b', hb', rfl, rfl⟩ := h'
  rw [hb] at hb'; cases hb'
  exact ⟨rfl, rfl⟩

theorem Tests.blockOf {x c n f : NodeId} (h : Tests s x c n f) :
    ∃ slot, BlockOf s x [] (.test c n f slot) := by
  obtain ⟨b, slot, hb, hempty, hexit⟩ := h
  exact ⟨slot, b, hb, hempty, hexit⟩

theorem BlockOf.grows {s' : Store} (h : BlockOf s x held exit)
    (hg : Grows s s') (hexit : exit ≠ .absent) : BlockOf s' x held exit := by
  obtain ⟨b, hb, hheld, he⟩ := h
  exact ⟨b, hg.node_eq hb nofun, hheld, hg.node_eq he hexit⟩

theorem returns_of_block {b : Block} (h : w.store.node x = .block b) :
    Returns (Pass.block x) w b w := by
  refine Returns.ofBind (a := w.store.node x) rfl ?_
  rw [h]
  rfl

theorem BlockOf.exitNode (h : BlockOf w.store x held exit) :
    Returns (exitNode x) w exit w := by
  obtain ⟨b, hb, -, rfl⟩ := h
  exact (returns_of_block hb).ofBind rfl

theorem returns_atSegment (h : a + i < b) :
    Returns (Pass.atPosition (segment block a b) (i : Int)) w (block (a + i)) w := by
  rw [Returns, Pass.atPosition, at?_ofNat, getElem?_segment, if_pos h]
  rfl

theorem Leaps.exitNode (h : Leaps s P block k j) (hg : Grows s w.store) :
    ∃ c slot, P c ∧ Returns (exitNode (block k)) w (.test c (block (k + 1)) (block j) slot) w := by
  obtain ⟨held, c, slot, hb, hc⟩ := h
  exact ⟨c, slot, hc, (hb.grows hg nofun).exitNode⟩

theorem returns_targetOf {c n f : NodeId} {slot : Option Int} :
    Returns (targetOf (.test c n f slot)) w f w := rfl

theorem Leaps.targetOfBlock (h : Leaps s P block k j) (hg : Grows s w.store) :
    Returns (targetOfBlock (block k)) w (block j) w := by
  obtain ⟨c, slot, -, he⟩ := h.exitNode hg
  exact he.ofBind rfl

theorem Leaps.det {j' : Nat} (hb : InOrder s block last) (h : Leaps s P block k j) (h' : Leaps s P block k j')
    (hj : j ≤ last) (hj' : j' ≤ last) : j = j' := by
  obtain ⟨held, c, slot, h, -⟩ := h
  obtain ⟨held', c', slot', h', -⟩ := h'
  refine (hb.inj hj hj').mp ?_
  have he := (h.det h').2
  simp only [Node.test.injEq] at he
  exact he.2.2.1

section
variable (hb : InOrder s block last)
include hb

theorem InOrder.indexOf (hk : k ≤ last) (hg : Grows s w.store) :
    Returns (indexOf (block k)) w (blockIndex s (block k)) w := by
  obtain ⟨b, h⟩ := hb.isBlock k hk
  refine (returns_of_block (hg.node_eq h nofun)).ofBind ?_
  rw [blockIndex, h]
  rfl

theorem InOrder.index_lt_iff (hi : i ≤ last) (hj : j ≤ last) :
    blockIndex s (block i) < blockIndex s (block j) ↔ i < j := by
  refine ⟨fun h => ?_, fun h => hb.index_lt i j h hj⟩
  rcases Nat.lt_trichotomy i j with hlt | rfl | hlt
  · exact hlt
  · omega
  · have := hb.index_lt j i hlt hi
    omega

theorem InOrder.ne_absent (hk : k ≤ last) : block k ≠ .absent := (hb.isBlock k hk).ne_absent hb.missing

theorem InOrder.idxOf?_segment (hk : a ≤ k) (hk' : k < b) (hlast : k ≤ last) :
    (segment block a b).idxOf? (block k) = some (k - a) := by
  have hget : (segment block a b)[k - a]? = some (block k) := by
    rw [getElem?_segment, if_pos (by omega), Nat.add_sub_cancel' hk]
  obtain ⟨hlt, hval⟩ := List.getElem?_eq_some_iff.mp hget
  refine List.idxOf?_eq_some_iff.mpr ⟨hlt, hval, fun m hm he => ?_⟩
  have hm' : (segment block a b)[m]? = some (block (a + m)) := by rw [getElem?_segment, if_pos (by omega)]
  rw [(List.getElem?_eq_some_iff.mp hm').2, hb.inj (by omega) hlast] at he
  omega

theorem InOrder.positionOf (hk : a ≤ k) (hk' : k < b) (hlast : k ≤ last) :
    Returns (positionOf (segment block a b) (block k)) w (k - a) w := by
  rw [Returns, Flow.positionOf, hb.idxOf?_segment hk hk' hlast]
  rfl

end

theorem between_segment (hm : a + m ≤ b) :
    between (segment block a b) i m = segment block (a + i) (a + m) := by
  refine List.ext_getElem? fun k => ?_
  rw [between_getElem?, getElem?_segment, getElem?_segment, Nat.add_assoc]
  by_cases hk : i + k < m
  · rw [if_pos hk, if_pos (by omega), if_pos (by omega)]
  · rw [if_neg hk, if_neg (by omega)]

theorem getLast?_segment (h : a < b) : (segment block a b).getLast? = some (block (b - 1)) := by
  rw [List.getLast?_eq_getElem?, getElem?_segment, length_segment, if_pos (by omega)]
  congr 2
  omega

/-! ## The end of an operand -/

/-- The end of an operand, as it is looked for among the blocks from `a` up to `b`. -/
abbrev endOf (s : Store) (block : Nat → NodeId) (t : Terminators) (a b i start : Nat) :
    Edit (Option (Nat × Nat)) :=
  operandAt (segment block a b) t (blockIndex s (block b)) i start

section
variable (ht : Stretch s block last t b far)
include ht

theorem Stretch.isInverted (hk : k ≤ last) {c n : NodeId} {slot : Option Int} :
    Returns (isInverted (.test c n (block k) slot) t) w (block k == t.yes) w := by
  unfold Flow.isInverted
  dsimp only
  split
  · rename_i h
    rw [h]
    rfl
  · rename_i h
    rw [if_neg (by simpa [ht.stop] using ht.inOrder.ne_absent hk), Bool.eq_false_iff.mpr h]
    rfl

theorem Stretch.contains (hk : k ≤ last) : t.contains (block k) = true ↔ k = b ∨ k = far := by
  have hfar := ht.near
  have hlast := ht.bound
  have hne := ht.inOrder.ne_absent hk
  simp only [Terminators.contains, ht.stop, Bool.or_eq_true, beq_iff_eq, hne, or_false]
  rcases ht.exits with ⟨hy, hn⟩ | ⟨hy, hn⟩ <;> rw [hy, hn, ht.inOrder.inj hk (by omega),
    ht.inOrder.inj hk (by omega)]
  exact or_comm

variable (hg : Grows s w.store)
include hg

theorem Stretch.terminatorIndex : Returns (terminatorIndex t) w (blockIndex s (block b)) w := by
  have hfar := ht.near
  have hlast := ht.bound
  have hb := ht.inOrder
  have hindex := (hb.index_lt_iff (i := b) (j := far) (by omega) hlast).mpr hfar
  unfold Flow.terminatorIndex
  rcases ht.exits with ⟨hy, hn⟩ | ⟨hy, hn⟩
  all_goals
    rw [hy, hn, ht.stop, if_pos (by simpa using hb.ne_absent (by omega))]
    refine (hb.indexOf (by omega) hg).ofBind ((hb.indexOf (by omega) hg).ofBind ?_)
    dsimp only
    rw [if_neg (by simp)]
  · rw [Int.min_eq_left (by omega)]
    rfl
  · rw [Int.min_eq_right (by omega)]
    rfl

section
variable (him : i ≤ m) (hm : a + m + 1 < b) (hrun : ∀ k, i ≤ k → k ≤ m → Leaps s P block (a + k) j)
  (hstop : a + m + 2 = b ∨ ∃ j', Leaps s P block (a + m + 1) j' ∧ j' ≤ last ∧ j' ≠ j)
include him hm hrun hstop

theorem Stretch.extendRun (hj : j ≤ last) (hfuel : m < fuel + i) :
    Returns (extendRun (segment block a b) t (block j) fuel i) w m w := by
  induction fuel generalizing i with
  | zero => omega
  | succ fuel ih =>
    unfold Flow.extendRun
    rw [length_segment]
    split
    · rename_i hlt
      have hnext : Returns (Pass.atPosition (segment block a b) ((i : Int) + 1)) w (block (a + (i + 1))) w :=
        returns_atSegment (i := i + 1) (by omega)
      rw [Returns, hnext.step]
      by_cases him' : i = m
      · subst him'
        obtain ⟨j', hJ', hj', hne⟩ := hstop.resolve_left (by omega)
        obtain ⟨c, slot, -, hexit⟩ := hJ'.exitNode hg
        rw [← Nat.add_assoc, hexit.step, returns_targetOf.step,
          if_pos (by simpa [ht.inOrder.inj hj' hj] using hne)]
        rfl
      · obtain ⟨c, slot, -, hexit⟩ := (hrun (i + 1) (by omega) (by omega)).exitNode hg
        obtain ⟨c', slot', -, hexit'⟩ := (hrun i (by omega) (by omega)).exitNode hg
        rw [hexit.step, returns_targetOf.step, if_neg (by simp), (ht.isInverted hj).step,
          (returns_atSegment (by omega)).step, hexit'.step, (ht.isInverted hj).step, if_neg (by simp)]
        exact ih (by omega) (fun k hk hk' => hrun k (by omega) hk') (by omega)
    · rename_i hge
      obtain rfl : i = m := by omega
      rfl

/-- A block that leads to an exit ends the operand, together with those after it that lead there. -/
theorem Stretch.endOf_run (hj : j = b ∨ j = far) :
    Returns (endOf s block t a b i start) w (some (start, m + 1)) w := by
  have hfar := ht.near
  have hlast := ht.bound
  have hb := ht.inOrder
  rw [Returns, endOf, operandAt, (returns_atSegment (by omega)).step,
    ((hrun i (by omega) him).targetOfBlock hg).step,
    (hb.indexOf (by omega) hg).step, if_neg (by rw [hb.index_lt_iff] <;> omega),
    (Returns.ofRequire ((ht.contains (by omega)).mpr hj)).step,
    (ht.extendRun hg him hm hrun hstop (by omega) (by rw [length_segment]; omega)).step]
  rfl

end

theorem Stretch.endOf_passed (hi : a + i < b) (hJ : Leaps s P block (a + i) j) (hj : j < b)
    (hne : i ≠ start) :
    Returns (endOf s block t a b i start) w none w := by
  have hfar := ht.near
  have hlast := ht.bound
  rw [Returns, endOf, operandAt, (returns_atSegment hi).step, (hJ.targetOfBlock hg).step,
    (ht.inOrder.indexOf (by omega) hg).step, if_pos ((ht.inOrder.index_lt_iff (by omega) (by omega)).mpr hj),
    if_pos (by simpa using hne)]
  rfl

/-- The first block of an operand leads to a place before the end, and the block before that place
tells whether the operand ends there. -/
theorem Stretch.endOf_first {j' : Nat} (hJ : Leaps s P block (a + start) j) (hlt : a + start < j) (hj : j < b)
    (hJ' : Leaps s P block (j - 1) j') (hj' : j' ≤ last) :
    endOf s block t a b start start w =
      if j' < b then .ok none w else if j' = b ∨ j' = far then .ok (some (start, j - a)) w
        else .error (.broken "an operand leads to a terminator") w := by
  have hfar := ht.near
  have hlast := ht.bound
  have hb := ht.inOrder
  have hbefore : Returns (Pass.atPosition (segment block a b) (((j - a : Nat) : Int) - 1)) w
      (block (j - 1)) w := by
    rw [show (((j - a : Nat) : Int) - 1) = ((j - a - 1 : Nat) : Int) by omega,
      show j - 1 = a + (j - a - 1) by omega]
    exact returns_atSegment (by omega)
  rw [endOf, operandAt, (returns_atSegment (by omega)).step, (hJ.targetOfBlock hg).step,
    (hb.indexOf (by omega) hg).step,
    if_pos ((hb.index_lt_iff (by omega) (by omega)).mpr hj), if_neg (by simp),
    (hb.positionOf (by omega) hj (by omega)).step, hbefore.step, (hJ'.targetOfBlock hg).step,
    (hb.indexOf hj' hg).step]
  by_cases hlt' : j' < b
  · rw [if_pos ((hb.index_lt_iff hj' (by omega)).mpr hlt'), if_pos hlt']
    rfl
  · rw [if_neg (by rwa [hb.index_lt_iff hj' (by omega)]), if_neg hlt']
    by_cases hexit : j' = b ∨ j' = far
    · rw [(Returns.ofRequire ((ht.contains hj').mpr hexit)).step, if_pos hexit]
      rfl
    · rw [if_neg hexit, Bool.eq_false_iff.mpr fun h => hexit ((ht.contains hj').mp h)]
      rfl

theorem Stretch.endOf_fails (hi : a + i < b) (hJ : Leaps s P block (a + i) j) (hj : b < j) (hne : j ≠ far)
    (hj' : j ≤ last) : Fails (endOf s block t a b i start) w := by
  have hb := ht.inOrder
  have hout : t.contains (block j) = false := by
    rw [Bool.eq_false_iff, Ne, ht.contains hj']
    omega
  refine ⟨.broken "an operand leads to a terminator", w, ?_⟩
  rw [endOf, operandAt, (returns_atSegment hi).step, (hJ.targetOfBlock hg).step,
    (hb.indexOf (by omega) hg).step,
    if_neg (by rw [hb.index_lt_iff] <;> omega), hout]
  rfl

variable {l r : Condition} {op around : Connective}

/-- If an operand ends evenly, the blocks that decide it end it, with those of the comparisons after it. -/
theorem Stretch.endOf_even (hj : r.IsJoined)
    (hl : l.LiesAt (Leaps s P block) op (if op = around then far else a + start + (l.size + r.size))
      (a + start))
    (hr : r.LiesAt (Leaps s P block) around far (a + start + l.size)) (heven : l.endsEvenly op = true)
    (hend : a + start + (l.size + r.size) = b) :
    Returns (endOf s block t a b (start + l.lead op) start) w
      (some (start, start + (l.extend op r).size)) w := by
  have hfar := ht.near
  have hlast := ht.bound
  obtain ⟨ho, hc⟩ := Condition.LiesAt.extend hl hr
  have hsizes := Condition.size_extend op l r
  have hlead := Condition.lead_lt_extend op l r
  have hpos := (r.remaining op).size_pos
  rw [hend] at ho
  obtain ⟨m, hm⟩ : ∃ m, (l.extend op r).size = m + 1 := ⟨_, (Nat.sub_add_cancel (Condition.size_pos _)).symm⟩
  have hrun : ∀ k, start + l.lead op ≤ k → k ≤ start + m →
      Leaps s P block (a + k) (if op = around then far else b) := by
    intro k hk hk'
    have := ho.fromLead (Condition.endsEvenly_extend heven) (k := k - start)
      (by rw [Condition.lead_extend]; omega) (by omega)
    rwa [show a + start + (k - start) = a + k by omega] at this
  have hstop : a + (start + m) + 2 = b ∨
      ∃ j, Leaps s P block (a + (start + m) + 1) j ∧ j ≤ last ∧ j ≠ if op = around then far else b := by
    cases hrest : r.remaining op with
    | test =>
      rw [hrest, Condition.size] at hsizes
      omega
    | join =>
      right
      obtain ⟨j, hj, hJ, hne⟩ := Condition.LiesAt.remaining_first hj hc (by omega) (by rw [hrest]; rfl)
      rw [show a + start + (l.extend op r).size + (r.remaining op).size = b by omega] at hne
      rw [hm, ← Nat.add_assoc, Nat.add_assoc a] at hJ
      exact ⟨j, hJ, by omega, hne⟩
  rw [hm, ← Nat.add_assoc]
  exact ht.endOf_run hg (by omega) (by omega) hrun hstop (by split <;> simp)

/-- If an operand does not end evenly, it is cut off before its end. -/
theorem Stretch.endOf_uneven {exit : Nat} (hexit : exit = b ∨ exit = far) (hj : l.IsJoined)
    (hl : l.LiesAt (Leaps s P block) op exit (a + start)) (heven : l.endsEvenly op = false)
    (hend : a + start + l.size < b) :
    ∃ m, l.lead op < m ∧ m < l.size ∧ Leaps s P block (a + start + m - 1) exit ∧
      Returns (endOf s block t a b (start + l.lead op) start) w (some (start, start + m)) w := by
  have hfar := ht.near
  have hlast := ht.bound
  obtain ⟨m, hm, hlead, hrun, j, hJ, hj⟩ := hl.notEven hj heven
  obtain ⟨m, rfl⟩ : ∃ m', m = m' + 1 := ⟨m - 1, by omega⟩
  refine ⟨m + 1, hlead, hm, hrun m (by omega) (by omega), ?_⟩
  rw [← Nat.add_assoc]
  refine ht.endOf_run (P := P) hg (by omega) (by omega) (fun k hk hk' => ?_)
    (.inr ⟨j, ?_, by omega, by omega⟩) hexit
  · have := hrun (k - start) (by omega) (by omega)
    rwa [show a + start + (k - start) = a + k by omega] at this
  · rwa [show a + (start + m) + 1 = a + start + (m + 1) by omega]

end

end

end LuaLift.Proofs
