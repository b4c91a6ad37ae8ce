import Mathlib.Data.List.Induction
import LuaLift.Proofs.BranchRegions

/-! # Conditions of branches

The empty blocks at the start of a region may belong to its condition. On compiled programs those
are taken that test the conditions of `if` statements without `else` which are all there is in each
other's branch (`Program.chain`), and they are joined by `and`. -/
namespace LuaLift.Proofs
open Tree Flow

section
variable {s s' : Store} {cs : List NodeId}

/-- A node joins conditions by `and`, from the left. -/
inductive Conjunction (s : Store) : List NodeId → NodeId → Prop
  | one {c} : Conjunction s [c] c
  | more {cs c l i} : s.node i = .binary .and l c → Conjunction s cs l → Conjunction s (cs ++ [c]) i

theorem Conjunction.carry {i : NodeId} (h : Conjunction s cs i)
    (hs : ∀ i l r, s.node i = .binary .and l r → s'.node i = .binary .and l r) : Conjunction s' cs i := by
  induction h with
  | one => exact .one
  | more hi _ ih => exact .more (hs _ _ _ hi) ih

end

variable {xs : List Bool} {starts : List NodeId} {inner : List NodeId → Terminators → Edit Terms} {x : NodeId}
  {s : Store} {u : Terms}

section
variable {block : Nat → NodeId} {last : Nat} {w : Work Unit} {a b e f i j k m n p r next : Nat}
  {held : List NodeId} {exit : Node}

theorem returns_filterMapM {α β σ : Type} {f : α → Pass σ (Option β)} {g : α → Option β}
    {xs : List α} {w : Work σ}
    (h : ∀ x ∈ xs, Returns (f x) w (g x) w) : Returns (xs.filterMapM f) w (xs.filterMap g) w := by
  induction xs with
  | nil => rfl
  | cons x xs ih =>
    have hrest := ih fun y hy => h y (List.mem_cons_of_mem _ hy)
    rw [List.filterMapM_cons, List.filterMap_cons]
    refine (h x List.mem_cons_self).ofBind ?_
    cases g x with
    | none => exact hrest
    | some y => exact hrest.ofBind rfl

/-! ## Chains of tests -/

/-- The operand that a condition is once it was taken apart. -/
def operandOf (t : Terms) : Flow.Term := if t.1.isEmpty then .leaf t.2 else .chain t.1 (.leaf t.2)

/-- What a chain of conditions that all lead to one place is taken apart to. -/
inductive Conjoined : Terms → List NodeId → Prop
  | one {c} : Conjoined ([], c) [c]
  | more {t cs c} : Conjoined t cs → Conjoined ([(operandOf t, .and)], c) (cs ++ [c])

theorem Conjoined.assemble {t : Terms} (h : Conjoined t cs) (w : Work Unit) :
    Succeeds (assemble (operandOf t)) w fun i w' => Grows w.store w'.store ∧ Conjunction w'.store cs i := by
  induction h generalizing w with
  | one => exact .pure ⟨.refl _, .one⟩
  | @more t cs c _ ih =>
    refine (ih w).next ?_
    rintro l w1 ⟨hg, hl⟩
    refine succeeds_addCell ⟨hg.trans (grows_push _ _), ?_⟩
    refine .more (by simp [Store.node, cell_push_self]) (hl.carry fun i l r hi => ?_)
    exact (grows_push _ _).node_eq hi (by simp)

/-- Where the block at position `k` leads is position `j`. -/
def TestsAt (s : Store) (block : Nat → NodeId) (c : NodeId) (k j : Nat) : Prop :=
  ∃ held slot, BlockOf s (block k) held (.test c (block (k + 1)) (block j) slot)

theorem TestsAt.leaps {c : NodeId} (h : TestsAt s block c k j) : Leaps s (fun _ => True) block k j := by
  obtain ⟨held, slot, hb⟩ := h
  exact ⟨held, c, slot, hb, trivial⟩

section
variable {t : Terminators} {c : NodeId} (h : TestsAt w.store block c k f)
  (ht : Stretch w.store block last t b f)
  (hyes : t.yes = block b)
include h ht hyes

theorem TestsAt.notInverted :
    ∃ slot, Returns (exitNode (block k)) w (.test c (block (k + 1)) (block f) slot) w ∧
    Returns (isInverted (.test c (block (k + 1)) (block f) slot) t) w false w := by
  have hfar := ht.near
  obtain ⟨held, slot, hb⟩ := h
  have hne : (block f == t.yes) = false := by
    rw [hyes, beq_eq_false_iff_ne, Ne, ht.inOrder.inj ht.bound (Nat.le_trans (Nat.le_of_lt hfar) ht.bound)]
    omega
  exact ⟨slot, hb.exitNode, hne ▸ ht.isInverted ht.bound⟩

theorem TestsAt.lastOperand : Returns (lastOperand (block k) t) w c w := by
  obtain ⟨slot, hexit, hinv⟩ := h.notInverted ht hyes
  exact hexit.ofBind (hinv.ofBind rfl)

theorem TestsAt.operatorAfter : Returns (operatorAfter (block k) t) w .and w := by
  obtain ⟨slot, hexit, hinv⟩ := h.notInverted ht hyes
  exact hexit.ofBind (hinv.ofBind rfl)

theorem TestsAt.operandTerm (hu : Conjoined u cs) (hk : k = a + cs.length - 1)
    (hc : cs.getLast? = some c)
    (hinner :
      Returns (inner (segment block a (a + cs.length)) ⟨.absent, block (a + cs.length), block f⟩) w u w) :
    Returns (operandTerm inner (segment block a (a + cs.length)) .and (block k) (block (a + cs.length)) t) w
      (operandOf u) w := by
  obtain ⟨slot, hexit, hinv⟩ := h.notInverted ht hyes
  unfold Flow.operandTerm
  rw [length_segment, Nat.add_sub_cancel_left]
  cases hu with
  | one =>
    cases hc
    exact hexit.ofBind (hinv.ofBind rfl)
  | @more u cs c' hu =>
    have hpos : cs ≠ [] := by cases hu <;> simp
    rw [if_neg (by simpa using hpos)]
    have hk' : k + 1 = a + (cs ++ [c']).length := by simp at hk ⊢; omega
    rw [hk'] at hexit
    exact Returns.ofBind (hexit.ofBind rfl) (hinner.ofBind rfl)

end

/-- The blocks from position `a` on test conditions and lead to `f` if one fails. -/
def InRow (s : Store) (block : Nat → NodeId) (a : Nat) (cs : List NodeId) (f : Nat) : Prop :=
  ∀ k c, cs[k]? = some c → TestsAt s block c (a + k) f

section
variable {t : Terminators} (h : InRow w.store block a cs f) (hn : cs.length = n + 1)
include h hn

theorem InRow.endOf (ht : Stretch w.store block last t (a + (n + 2)) f) :
    Returns (endOf w.store block t a (a + (n + 2)) 0 0) w (some (0, n + 1)) w := by
  refine ht.endOf_run (P := fun _ => True) (.refl _) (Nat.zero_le _) (by omega) (fun k _ hk => ?_)
    (.inl (by omega)) (.inr rfl)
  obtain ⟨c, hc⟩ : ∃ c, cs[k]? = some c := ⟨_, List.getElem?_eq_getElem (by omega)⟩
  exact (h k c hc).leaps

theorem InRow.links (hu : Conjoined u cs) (ht : Stretch w.store block last t (a + (n + 2)) f)
    (hyes : t.yes = block (a + (n + 2)))
    (hinner :
      Returns (inner (segment block a (a + cs.length)) ⟨.absent, block (a + cs.length), block f⟩) w u w) :
    Returns (termsFrom inner (segment block a (a + (n + 2))) t
      (blockIndex w.store (block (a + (n + 2)))) (n + 2) 0 0)
      w [(operandOf u, .and)] w := by
  have hfar := ht.near
  have hlast := ht.bound
  obtain ⟨c, hc⟩ : ∃ c, cs[n]? = some c := ⟨_, List.getElem?_eq_getElem (by omega)⟩
  have htest := h n c hc
  have hgetLast : cs.getLast? = some c := by rwa [List.getLast?_eq_getElem?, hn]
  have hnext : Returns (Pass.atPosition (segment block a (a + (n + 2))) (((a + n - a : Nat) : Int) + 1)) w
      (block (a + (n + 1))) w := by
    rw [show ((a + n - a : Nat) : Int) + 1 = ((n + 1 : Nat) : Int) by omega]
    exact returns_atSegment (by omega)
  have hrest :
    Returns (termsFrom inner (segment block a (a + (n + 2))) t (blockIndex w.store (block (a + (n + 2))))
      (n + 1) (a + n - a + 1) (a + n - a + 1)) w [] w := by
    rw [termsFrom, length_segment, if_neg (by omega)]
    rfl
  have hterm := htest.operandTerm ht hyes hu (by omega) hgetLast hinner
  rw [hn] at hterm
  rw [Returns, termsFrom, length_segment, if_pos (by omega), (h.endOf hn ht).step]
  dsimp only
  rw [between_segment (by omega), Nat.add_zero, getLast?_segment (by omega)]
  dsimp only
  rw [show a + (n + 1) - 1 = a + n
    by omega, (ht.inOrder.positionOf (by omega) (by omega) (by omega)).step, hnext.step,
    (htest.operatorAfter ht hyes).step, hterm.step, hrest.step]
  rfl

end

theorem InRow.terms {depth : Nat} (h : InRow w.store block a cs f)
    (hb : InOrder w.store block last)
    (hne : cs ≠ []) (hf : a + cs.length < f) (hlast : f ≤ last) (hd : cs.length ≤ depth) :
    ∃ t, Returns
      (terms depth (segment block a (a + cs.length)) ⟨.absent, block (a + cs.length), block f⟩) w t w ∧
      Conjoined t cs := by
  induction cs using List.reverseRecOn generalizing depth with
  | nil => exact absurd rfl hne
  | append_singleton cs c ih =>
    have hlen : (cs ++ [c]).length = cs.length + 1 := by simp
    have hc : TestsAt w.store block c (a + cs.length) f := h cs.length c (by simp)
    have hbefore : InRow w.store block a cs f := fun k c' hk =>
      h k c' (by rw [List.getElem?_append_left (List.getElem?_eq_some_iff.mp hk).1, hk])
    rw [hlen] at hf hd ⊢
    obtain ⟨depth, rfl⟩ : ∃ d, depth = d + 1 := ⟨depth - 1, by omega⟩
    have ht : Stretch w.store block last ⟨.absent, block (a + (cs.length + 1)),
        block f⟩ (a + (cs.length + 1)) f :=
      ⟨hb, rfl, .inl ⟨rfl, rfl⟩, hf, hlast⟩
    -- The last condition follows the operands before it.
    have hends : ∀ {links}, Returns (termsFrom (Flow.terms depth) (segment block a (a + (cs.length + 1)))
        ⟨.absent, block (a + (cs.length + 1)), block f⟩ (blockIndex w.store (block (a + (cs.length + 1))))
        (cs.length + 1) 0 0) w links w →
        Returns (Flow.terms (depth + 1) (segment block a (a + (cs.length + 1)))
          ⟨.absent, block (a + (cs.length + 1)), block f⟩) w (links, c) w := by
      intro links hlinks
      refine (ht.terminatorIndex (.refl _)).ofBind ?_
      rw [length_segment, Nat.add_sub_cancel_left, getLast?_segment (by omega)]
      exact hlinks.ofBind ((hc.lastOperand ht rfl).ofBind rfl)
    cases hn : cs.length with
    | zero =>
      obtain rfl := List.length_eq_zero_iff.mp hn
      refine ⟨_, hends ?_, .one⟩
      rw [termsFrom, length_segment, if_neg (by simp)]
      rfl
    | succ n =>
      obtain ⟨u, hu, hcu⟩ := ih hbefore (by rintro rfl; cases hn) (by omega) (Nat.le_of_succ_le_succ hd)
      rw [hn] at ht hends
      exact ⟨_, hends (hbefore.links hn hcu ht rfl hu), .more hcu⟩

theorem InRow.compile (h : InRow w.store block a cs f) (hb : InOrder w.store block last)
    (hne : cs ≠ []) (hf : a + cs.length < f) (hlast : f ≤ last) :
    Succeeds (compile (segment block a (a + cs.length)) ⟨.absent, block (a + cs.length), block f⟩) w
      fun i w' => Grows w.store w'.store ∧ Conjunction w'.store cs i := by
  obtain ⟨t, ht, hc⟩ := h.terms hb hne hf hlast (Nat.le_succ _)
  have hrun := hc.assemble w
  refine Succeeds.bind ⟨t, w, ?_, ?_⟩
  · rwa [length_segment, Nat.add_sub_cancel_left]
  · cases hc with
    | one => exact .pure ⟨.refl _, .one⟩
    | more => exact hrun

/-! ## Which blocks belong to a condition -/

theorem getElem?_of_lt_takeWhile (h : k < (xs.takeWhile id).length) : xs[k]? = some true := by
  induction xs generalizing k with
  | nil => cases h
  | cons x xs ih =>
    cases x with
    | false => cases h
    | true =>
      cases k with
      | zero => rfl
      | succ k => exact ih (Nat.lt_of_succ_lt_succ h)

theorem le_length_takeWhile (h : ∀ k < n, xs[k]? = some true) : n ≤ (xs.takeWhile id).length := by
  induction n generalizing xs with
  | zero => exact Nat.zero_le _
  | succ n ih =>
    cases xs with
    | nil => cases h 0 (Nat.succ_pos _)
    | cons x xs =>
      obtain rfl : x = true := Option.some.inj (h 0 (Nat.succ_pos _))
      exact Nat.succ_le_succ (ih fun k hk => h (k + 1) (Nat.succ_lt_succ hk))

theorem BlockOf.targetOfBlock {y : NodeId} (h : BlockOf w.store x held exit) (hexit : LeadsTo exit y)
    (hstop : ∀ z, exit ≠ .stop z) : Returns (targetOfBlock x) w y w :=
  h.exitNode.ofBind (hexit.targetOf hstop)

theorem BlockOf.items (h : BlockOf w.store x held exit) : Returns (Pass.items x) w held w := by
  obtain ⟨b, hb, rfl, -⟩ := h
  refine Returns.ofBind (a := w.store.node x) rfl ?_
  rw [hb]
  rfl

/-- The block that the other branch can start with, after a block with a given exit. -/
def startAfter (stop outer : NodeId) (after : NodeId) : Node → Option NodeId
  | .jump .jump target _ => if target == stop || target == outer then some after else none
  | _ => none

/-- The exit of a block. -/
def exitIn (s : Store) (i : NodeId) : Node :=
  match s.node i with
  | .block b => s.node b.exit
  | _ => .absent

theorem BlockOf.exitIn {i : NodeId} (h : BlockOf s i held exit) : exitIn s i = exit := by
  obtain ⟨b, hb, -, rfl⟩ := h
  simp [Proofs.exitIn, hb]

theorem mem_zip_segment {x : NodeId × NodeId} : x ∈ (segment block a b).zip ((segment block a b).drop 1) ↔
    ∃ k, a ≤ k ∧ k + 1 < b ∧ (block k, block (k + 1)) = x := by
  simp only [List.mem_iff_getElem?, List.getElem?_zip_eq_some, List.getElem?_drop, getElem?_segment]
  constructor
  · rintro ⟨k, hi, hj⟩
    by_cases hk : a + (1 + k) < b
    · rw [if_pos (by omega)] at hi
      rw [if_pos hk] at hj
      refine ⟨a + k, by omega, by omega, ?_⟩
      rw [Option.some.inj hi, show a + k + 1 = a + (1 + k) by omega, Option.some.inj hj]
    · rw [if_neg hk] at hj
      cases hj
  · rintro ⟨k, hk, hk', he⟩
    cases he
    refine ⟨k - a, ?_, ?_⟩
    · rw [if_pos (by omega), Nat.add_sub_cancel' hk]
    · rw [if_pos (by omega), show a + (1 + (k - a)) = k + 1 by omega]

theorem otherwiseStarts_run (stop outer : NodeId)
    (hblocks : ∀ k, a ≤ k → k < b → ∃ held exit, BlockOf w.store (block k) held exit) :
    ∃ starts, Returns (otherwiseStarts (segment block a b) stop outer) w starts w ∧ stop ∈ starts ∧
      ∀ k held closes, a ≤ k → k + 1 < b → BlockOf w.store (block k) held (.jump .jump stop closes) →
        block (k + 1) ∈ starts := by
  refine ⟨_, Returns.ofBind (returns_filterMapM (g := fun x => startAfter stop outer x.2 (exitIn w.store x.1))
    fun x hx => ?_) rfl, by simp, fun k held closes hk hk' hblock => ?_⟩
  · obtain ⟨k, hk, hk', rfl⟩ := mem_zip_segment.mp hx
    obtain ⟨held, exit, hblock⟩ := hblocks k hk (by omega)
    refine hblock.exitNode.ofBind ?_
    rw [hblock.exitIn]
    cases exit with
    | jump kind target closes => cases kind <;> rfl
    | _ => rfl
  · refine List.mem_append_left _ (List.mem_append_left _ (List.mem_filterMap.mpr ?_))
    refine ⟨_, mem_zip_segment.mpr ⟨k, hk, hk', rfl⟩, ?_⟩
    rw [hblock.exitIn]
    simp [startAfter]

theorem conditionEnd_run {otherwise : NodeId} (hf : block f ∈ starts)
    (hother : otherwise = .absent ∨ otherwise = block f) (hab : a + n ≤ b) (hn : 0 < n)
    (hrun : ∀ i, a ≤ i → i < a + n → Returns (targetOfBlock (block i)) w (block f) w) (count : Nat) :
    conditionEnd starts (segment block a b) k otherwise count w =
      conditionEnd starts (segment block (a + n) b) (k + n) (block f) (k + n) w := by
  induction n generalizing a k otherwise count with
  | zero => omega
  | succ n ih =>
    rw [segment_cons (by omega), conditionEnd, (hrun a (Nat.le_refl _) (by omega)).step,
      if_neg (by simpa using hf),
      if_pos (by rcases hother with rfl | rfl <;> simp)]
    cases n with
    | zero => rfl
    | succ n =>
      rw [ih (.inr rfl) (by omega) (Nat.succ_pos _) (fun i hi hi' => hrun i (by omega) (by omega)),
        show a + 1 + (n + 1) = a + (n + 1 + 1) by omega, show k + 1 + (n + 1) = k + (n + 1 + 1) by omega]

/-- After them, blocks that lead elsewhere are passed. A block that leads to the start of another branch
ends the condition. -/
theorem conditionEnd_rest {count : Nat} (hab : a ≤ b) (hf : block f ≠ .absent)
    (hrest : ∀ i, a ≤ i → i < b → ∃ x, Returns (targetOfBlock (block i)) w x w ∧ (x = block f →
      ∃ j, a ≤ j ∧ j < i ∧ ∃ y ∈ starts, Returns (targetOfBlock (block j)) w y w ∧ y ≠ block f)) :
    Returns (conditionEnd starts (segment block a b) k (block f) count) w (block f, count) w := by
  induction hn : b - a generalizing a k with
  | zero =>
    obtain rfl : a = b := by omega
    rw [segment_self]
    exact (Returns.ofRequire (by simpa using hf)).ofBind rfl
  | succ n ih =>
    obtain ⟨x, hx, hxf⟩ := hrest a (Nat.le_refl _) (by omega)
    have hne : x ≠ block f := by
      rintro rfl
      obtain ⟨j, hj, hj', -⟩ := hxf rfl
      omega
    rw [segment_cons (by omega), Returns, conditionEnd, hx.step]
    by_cases hmem : x ∈ starts
    · rw [if_neg (by simpa using hmem), if_neg (by simp [hf, hne])]
      rfl
    · rw [if_pos (by simpa using hmem)]
      refine ih (by omega) (fun i hi hi' => ?_) (by omega)
      obtain ⟨y, hy, hyf⟩ := hrest i (by omega) hi'
      refine ⟨y, hy, fun he => ?_⟩
      obtain ⟨j, hj, hj', z, hz, hzr, hzf⟩ := hyf he
      refine ⟨j, Nat.lt_of_le_of_ne hj ?_, hj', z, hz, hzr, hzf⟩
      rintro rfl
      exact hmem ((hx.unique hzr).1 ▸ hz)

end

namespace Program
variable {block : Nat → NodeId} {last : Nat} {w : Work Unit} {a b i j k n p r next : Nat} {c : NodeId}
  {q yes no : Program} {closed : Bool} {held : List NodeId} {exit : Node}

/-- The conditions of an `if` after the first one, and the branch that is run if all of them hold. -/
def opening (yes no : Program) : List NodeId × Program := if no.isDone then yes.chain else ([], yes)

theorem CompiledAt.empty (h : q.CompiledAt w.store block closed held p next) (hq : q.WellFormed w.store)
    (hd : q.isDone = false) (hnext : p + q.width ≤ next) (hk : p ≤ k) (hk' : k < p + q.width)
    (hempty : BlockOf w.store (block k) [] exit) :
    k + 1 < p + q.width ∧ ∃ j, Returns (targetOfBlock (block k)) w (block j) w ∧
      (j < p + q.width ∨ j = next) := by
  have hlt : k + 1 < p + q.width := by
    refine Nat.lt_of_le_of_ne hk' fun he => ?_
    obtain ⟨held', exit', hne, hblock, -⟩ := h.last hq (.inl hd)
    rw [← he, Nat.add_sub_cancel] at hblock
    exact hne (hblock.det hempty).1
  obtain ⟨held', exit', j, hblock, hexit, -, hj, hstop⟩ := h.leadsAhead hnext hk hk'
  exact ⟨hlt, j, hblock.targetOfBlock hexit fun z hz => by have := (hstop z hz).2; omega, hj⟩

/-- If the empty blocks at the start of a program that is no chain lead to where the program goes on, there
is one before them that leads to an `else` branch of an `if` that is all there is in the program. -/
theorem CompiledAt.emptyStart (h : q.CompiledAt w.store block closed [] a next)
    (hb : InOrder w.store block last)
    (hq : q.WellFormed w.store) (hd : q.isDone = false) (hchain : q.chain = ([], q))
    (hnext : a + q.width ≤ next)
    (hlast : next ≤ last) (hempty : ∀ i, a ≤ i → i < b → ∃ exit, BlockOf w.store (block i) [] exit)
    (hi : a ≤ i) (hib : i < b) (hi' : i < a + q.width) :
    ∃ j, Returns (targetOfBlock (block i)) w (block j) w ∧ j ≤ last ∧ (j = next → a < i ∧
      ∃ m held closes, Returns (targetOfBlock (block a)) w (block m) w ∧ a < m ∧ m < a + q.width ∧ held ≠ [] ∧
        BlockOf w.store (block (m - 1)) held (.jump .jump (block next) closes)) := by
  obtain ⟨exit, hblock⟩ := hempty i hi hib
  obtain ⟨-, j, hj, hj'⟩ := h.empty hq hd hnext hi hi' hblock
  refine ⟨j, hj, by omega, fun he => ?_⟩
  cases q with
  | done => cases hd
  | step x rest =>
    -- The first block is not empty.
    obtain ⟨more, exit', hstart⟩ := CompiledAt.start (q := rest) h
    obtain ⟨exit'', hstart'⟩ := hempty a (Nat.le_refl _) (by omega)
    cases (hstart.det hstart').1
  | branch c yes no rest =>
    cases hrest : rest.isDone with
    | false =>
      -- All of the blocks lead to the rest at the farthest.
      have hposr := rest.width_pos
      rw [width_branch, extent_eq hrest] at hi' hnext
      obtain ⟨hfork, -⟩ := (compiledAt_branch hrest).mp h
      have hq' : (branch c yes no done).WellFormed w.store :=
        ⟨hq.1, hq.2.1, hq.2.2.1, hq.2.2.2.1, hq.2.2.2.2.1, trivial⟩
      have hfork' := compiledAt_branch_last.mpr hfork
      have hwidth : (branch c yes no done).width = 1 + yes.width + no.extent := rfl
      have hinside : i < a + (branch c yes no done).width := by
        refine Nat.lt_of_not_le fun hle => ?_
        obtain ⟨exit', hblock'⟩ := hempty (a + (branch c yes no done).width - 1) (by omega) (by omega)
        have := (hfork'.empty hq' rfl (by omega) (by omega) (by omega) hblock').1
        omega
      obtain ⟨-, j', hj', hle⟩ := hfork'.empty hq' rfl (by omega) hi hinside hblock
      have := (hb.inj (by omega) (by omega)).mp (hj.unique hj').1
      omega
    | true =>
      obtain rfl := isDone_iff.mp hrest
      have hno : no.isDone = false := by
        cases hno : no.isDone with
        | false => rfl
        | true =>
          obtain rfl := isDone_iff.mp hno
          cases hchain
      have hposn := no.width_pos
      rw [width_branch, extent_done, extent_eq hno] at hnext
      rw [width_branch, extent_done, extent_eq hno]
      have hfork := compiledAt_branch_last.mp h
      obtain ⟨slot, hstart⟩ := hfork.start
      rw [hno, if_neg (by simp)] at hstart
      have htarget := hstart.targetOfBlock .test nofun
      have hfirst := hfork.first
      rw [hno, Bool.and_false] at hfirst
      obtain ⟨held, exit', hne, hlast', closes, rfl⟩ := hfirst.last hq.2.2.2.1 (.inl hq.2.2.1)
      rw [if_neg (by omega)] at hlast'
      refine ⟨Nat.lt_of_le_of_ne hi ?_, _, held, closes, htarget, by omega, by omega, hne, hlast'⟩
      rintro rfl
      have := (hb.inj (by omega) (by omega)).mp (htarget.unique hj).1
      omega

theorem ForkedAt.opening (h : ForkedAt s block c yes no closed held p next) :
    InRow s block p (c :: (opening yes no).1) (if no.isDone then next else p + 1 + yes.width) ∧
      (∀ i, p < i → i ≤ p + (opening yes no).1.length → ∃ exit, BlockOf s (block i) [] exit) ∧
      (opening yes no).2.CompiledAt s block (closed && no.isDone) []
      (p + 1 + (opening yes no).1.length) next := by
  obtain ⟨slot, hstart⟩ := h.start
  have hfirst := h.first
  unfold Program.opening
  cases hno : no.isDone with
  | false =>
    rw [hno] at hstart hfirst
    refine ⟨fun k c' hk => ?_, fun i hi hi' => ?_, hfirst⟩
    · cases k with
      | zero =>
        cases hk
        exact ⟨held, slot, hstart⟩
      | succ k => cases hk
    · simp at hi'
      omega
  | true =>
    rw [hno] at hstart hfirst
    obtain ⟨hrow, hcore⟩ := hfirst.chain
    refine ⟨fun k c' hk => ?_, fun i hi hi' => ?_, hcore⟩
    · cases k with
      | zero =>
        cases hk
        exact ⟨held, slot, hstart⟩
      | succ k =>
        obtain ⟨slot', hb⟩ := hrow k c' hk
        rw [show p + 1 + k = p + (k + 1) by omega] at hb
        exact ⟨[], slot', hb⟩
    · obtain ⟨c', hc'⟩ : ∃ c', yes.chain.1[i - (p + 1)]? = some c' :=
        ⟨_, List.getElem?_eq_getElem (by simp at hi'; omega)⟩
      obtain ⟨slot', hb⟩ := hrow _ c' hc'
      rw [Nat.add_sub_cancel' hi] at hb
      exact ⟨_, hb⟩

theorem width_opening (yes no : Program) :
    yes.width = (opening yes no).1.length + (opening yes no).2.width := by
  unfold opening
  split
  · exact yes.width_chain
  · simp

theorem WellFormed.opening (hyes : yes.WellFormed s) (hd : yes.isDone = false) (no : Program) :
    (opening yes no).2.WellFormed s ∧ (opening yes no).2.isDone = false := by
  unfold Program.opening
  split
  · exact ⟨hyes.chain.1, hyes.chain.2.2 hd⟩
  · exact ⟨hyes, hd⟩

/-- Of the empty blocks at the start of an `if`, those belong to its condition that test the conditions of
its opening. -/
theorem ForkedAt.conditionEnd (h : ForkedAt w.store block c yes no closed held p next)
    (hb : InOrder w.store block last) (hq : (branch c yes no done).WellFormed w.store)
    (hr : p + (branch c yes no done).width = r) (hnext : r ≤ next) (hlast : next ≤ last)
    (hk : (Program.opening yes no).1.length ≤ k)
    (hempty : ∀ i, p < i → i < p + 1 + k → ∃ exit, BlockOf w.store (block i) [] exit)
    (hstop : block next ∈ starts)
    (hstarts : ∀ i held closes, p + 1 + k ≤ i → i + 1 < r →
      BlockOf w.store (block i) held (.jump .jump (block next) closes) → block (i + 1) ∈ starts) :
    Returns (conditionEnd starts (segment block p (p + 1 + k)) 0 .absent 0) w
      (block (if no.isDone then next else p + 1 + yes.width), (Program.opening yes no).1.length + 1) w := by
  obtain ⟨hrow, -, hcore⟩ := h.opening
  obtain ⟨hqc, hdc⟩ := hq.2.2.2.1.opening hq.2.2.1 no
  have hwidth := width_opening yes no
  have hpos := (Program.opening yes no).2.width_pos
  have hr' : p + 1 + yes.width + no.extent = r := by rw [← hr, width_branch, extent_done]; omega
  -- A block with statements comes after the empty ones.
  have hafter : ∀ {i held exit}, held ≠ [] → BlockOf w.store (block i) held exit → p < i → p + 1 + k ≤ i := by
    intro i held exit hne hblock hi
    refine Nat.le_of_not_lt fun hlt => ?_
    obtain ⟨exit', hblock'⟩ := hempty i hi hlt
    exact hne (hblock.det hblock').1
  have htests : ∀ i, p ≤ i → i < p + ((Program.opening yes no).1.length + 1) →
      Returns (targetOfBlock (block i)) w (block (if no.isDone then next else p + 1 + yes.width)) w := by
    intro i hi hi'
    obtain ⟨c', hc'⟩ : ∃ c', (c :: (Program.opening yes no).1)[i - p]? = some c' :=
      ⟨_, List.getElem?_eq_getElem (by rw [List.length_cons]; omega)⟩
    obtain ⟨held', slot, hblock⟩ := hrow _ c' hc'
    rw [Nat.add_sub_cancel' hi] at hblock
    exact hblock.targetOfBlock .test nofun
  cases hno : no.isDone with
  | true =>
    rw [isDone_iff.mp hno, extent_done] at hr'
    rw [hno, if_pos rfl] at htests
    rw [hno, Bool.and_true] at hcore
    have hopening : Program.opening yes no = yes.chain := by simp [Program.opening, hno]
    rw [if_pos rfl, Returns, conditionEnd_run hstop (.inl rfl) (by omega) (Nat.succ_pos _) htests,
      Nat.zero_add]
    refine conditionEnd_rest (by omega) (hb.ne_absent hlast) fun i hi hi' => ?_
    have hchain : (Program.opening yes no).2.chain = ([], (Program.opening yes no).2) := by
      rw [hopening]
      exact yes.chain_chain
    have hinside : i < p + 1 + (Program.opening yes no).1.length + (Program.opening yes no).2.width := by
      refine Nat.lt_of_not_le fun hle => ?_
      obtain ⟨held', exit', hne, hblock, -⟩ := hcore.last hqc (.inl hdc)
      have := hafter hne hblock (by omega)
      omega
    obtain ⟨j, hj, hjl, hjn⟩ := hcore.emptyStart hb hqc hdc hchain (by omega) hlast
      (fun i hi hi' => hempty i (by omega) hi') (i := i) (by omega) hi' hinside
    refine ⟨block j, hj, fun he => ?_⟩
    obtain ⟨hlt, m, held', closes, hm, ham, hmr, hne, hblock⟩ := hjn ((hb.inj hjl hlast).mp he)
    have hafter' := hafter hne hblock (by omega)
    have hmem := hstarts (m - 1) held' closes hafter' (by omega) hblock
    rw [Nat.sub_add_cancel (by omega)] at hmem
    refine ⟨_, by omega, hlt, block m, hmem, hm, fun he => ?_⟩
    have := (hb.inj (by omega) hlast).mp he
    omega
  | false =>
    have hposn := no.width_pos
    rw [extent_eq hno] at hr'
    rw [hno, if_neg (by simp)] at htests
    have hopening : Program.opening yes no = ([], yes) := by simp [Program.opening, hno]
    rw [hopening] at htests hcore ⊢
    rw [hno, Bool.and_false] at hcore
    simp only [List.length_nil, Nat.add_zero, Nat.zero_add] at htests hcore ⊢
    obtain ⟨held', exit', hne, hblock, closes, rfl⟩ := hcore.last hq.2.2.2.1 (.inl hq.2.2.1)
    rw [if_neg (by omega)] at hblock
    have hypos := yes.width_pos
    have hafter' := hafter hne hblock (by omega)
    have hmem := hstarts _ held' closes hafter' (by omega) hblock
    rw [Nat.sub_add_cancel (by omega)] at hmem
    rw [if_neg (by simp), Returns, conditionEnd_run hmem (.inl rfl) (by omega) Nat.one_pos htests,
      Nat.zero_add]
    refine conditionEnd_rest (by omega) (hb.ne_absent (by omega)) fun i hi hi' => ?_
    obtain ⟨exit', hblock'⟩ := hempty i (by omega) hi'
    obtain ⟨-, j, hj, hj'⟩ := hcore.empty hq.2.2.2.1 hq.2.2.1 (by omega) hi (by omega) hblock'
    refine ⟨block j, hj, fun he => ?_⟩
    have := (hb.inj (by omega) (by omega)).mp he
    omega

/-- The number of empty blocks from position `a` on; the last block does not count. -/
def emptyBlocks (s : Store) (block : Nat → NodeId) (a b : Nat) : Nat :=
  min (((segment block a b).map fun i => (s.node i).items.isEmpty).takeWhile id).length
    ((segment block a b).length - 1)

theorem emptyBlocks_le (s : Store) (block : Nat → NodeId) (a b : Nat) :
    emptyBlocks s block a b ≤ b - a - 1 := by
  rw [emptyBlocks, length_segment]
  exact Nat.min_le_right _ _

theorem isEmpty_emptyBlocks (hi : i < emptyBlocks s block a b) :
    (s.node (block (a + i))).items.isEmpty = true := by
  have hget := getElem?_of_lt_takeWhile (Nat.lt_of_lt_of_le hi (Nat.min_le_left _ _))
  rw [List.getElem?_map, getElem?_segment] at hget
  split at hget
  · exact Option.some.inj hget
  · cases hget

theorem le_emptyBlocks (hn : a + n < b) (h : ∀ i < n, ∃ exit, BlockOf s (block (a + i)) [] exit) :
    n ≤ emptyBlocks s block a b := by
  refine Nat.le_min.mpr ⟨le_length_takeWhile fun i hi => ?_, by rw [length_segment]; omega⟩
  obtain ⟨exit, blk, hblock, hheld, -⟩ := h i hi
  rw [List.getElem?_map, getElem?_segment, if_pos (by omega), Option.map_some, hblock]
  simp [Node.items, hheld]

theorem ForkedAt.branchCondition (h : ForkedAt w.store block c yes no closed held p next)
    (hb : InOrder w.store block last) (hq : (branch c yes no done).WellFormed w.store)
    (hr : p + (branch c yes no done).width = r) (hnext : r ≤ next) (hlast : next ≤ last) :
    Succeeds (branchCondition (block p) (segment block (p + 1) r) (block next) (block next)) w fun x w' =>
      Grows w.store w'.store ∧ Conjunction w'.store (c :: (Program.opening yes no).1) x.1 ∧
        x.2.1 = segment block (p + 1 + (Program.opening yes no).1.length) r ∧
        x.2.2 = block (if no.isDone then next else p + 1 + yes.width) := by
  obtain ⟨hrow, hopen, -⟩ := h.opening
  have hwidth := width_opening yes no
  have hpos := (Program.opening yes no).2.width_pos
  have hr' : p + 1 + yes.width + no.extent = r := by rw [← hr, width_branch, extent_done]; omega
  have hblocks : ∀ i, p ≤ i → i < r → ∃ held exit, BlockOf w.store (block i) held exit := by
    intro i hi hi'
    obtain ⟨held, exit, -, hblock, -⟩ :=
      (compiledAt_branch_last.mpr h).leadsAhead (k := i) (by omega) hi (by omega)
    exact ⟨held, exit, hblock⟩
  have hitems : Returns ((segment block (p + 1) r).mapM fun i => do return (← Pass.items i).isEmpty) w
      ((segment block (p + 1) r).map fun i => (w.store.node i).items.isEmpty) w := by
    refine returns_mapM fun x hx => ?_
    obtain ⟨i, hi, hi', rfl⟩ := mem_segment.mp hx
    obtain ⟨held, exit, b, hblock, rfl, he⟩ := hblocks i (by omega) hi'
    rw [hblock]
    exact (BlockOf.items ⟨b, hblock, rfl, he⟩).ofBind rfl
  unfold Flow.branchCondition
  rw [if_neg (by rw [List.isEmpty_iff_length_eq_zero, length_segment]; omega)]
  refine Succeeds.bind ⟨_, _, hitems, ?_⟩
  dsimp only
  rw [← emptyBlocks]
  have hk : (Program.opening yes no).1.length ≤ emptyBlocks w.store block (p + 1) r :=
    le_emptyBlocks (by omega) fun i hi => hopen (p + 1 + i) (by omega) (by omega)
  have hkr := emptyBlocks_le w.store block (p + 1) r
  have hempty : ∀ i, p < i → i < p + 1 + emptyBlocks w.store block (p + 1) r →
      ∃ exit, BlockOf w.store (block i) [] exit := by
    intro i hi hi'
    have hget : (w.store.node (block (p + 1 + (i - (p + 1))))).items.isEmpty = true :=
      isEmpty_emptyBlocks (b := r) (by omega)
    rw [Nat.add_sub_cancel' hi] at hget
    obtain ⟨held, exit, b, hblock, rfl, he⟩ := hblocks i (by omega) (by omega)
    rw [hblock] at hget
    exact ⟨exit, b, hblock, List.isEmpty_iff.mp hget, he⟩
  generalize emptyBlocks w.store block (p + 1) r = k at hk hkr hempty ⊢
  rw [drop_segment, take_segment (by omega), ← segment_cons (by omega)]
  obtain ⟨starts, hstarts, hstop, hmem⟩ :=
    otherwiseStarts_run (w := w) (a := p + 1 + k) (b := r) (block next) (block next)
    fun i hi hi' => hblocks i (by omega) hi'
  refine Succeeds.bind ⟨_, _, hstarts, Succeeds.bind ⟨_, _,
    h.conditionEnd hb hq hr hnext hlast hk hempty hstop hmem, ?_⟩⟩
  dsimp only
  rw [drop_segment, segment_append (by omega) (by omega), take_segment (by omega),
    show p + ((Program.opening yes no).1.length + 1) = p + 1 + (Program.opening yes no).1.length by omega]
  refine Succeeds.bind ⟨_, _, returns_atSegment (i := 0) (by omega), ?_⟩
  have hcompile := hrow.compile hb (by simp) (by rw [List.length_cons]; split <;> omega) (by split <;> omega)
  rw [List.length_cons,
    show p + ((Program.opening yes no).1.length + 1) = p + 1 + (Program.opening yes no).1.length by omega]
    at hcompile
  exact hcompile.next fun i w' ⟨hg, hc⟩ => .pure ⟨hg, hc, rfl, rfl⟩

end Program

end LuaLift.Proofs
