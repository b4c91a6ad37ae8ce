import LuaLift.Proofs.OperandEnds
import LuaLift.Proofs.Sharing

/-! # Which conditions are recovered

Taking a condition apart succeeds if its operands can be told apart (`Condition.isClear`), and
fails otherwise: an operand that is cut off before its end leads behind the end that was found. The
induction is on the number of comparisons (`takesApart`), with a loop over the operands of a
condition (`Stretch.succeedsIf_linksFrom`). -/
namespace LuaLift.Proofs
open Tree Flow

section
variable {s : Store} {block : Nat → NodeId} {last : Nat} {w : Work Unit} {t : Terminators}
  {a b far i j k m n start fuel depth : Nat}

/-! ## Making expressions -/

theorem succeeds_copyDeep {root : NodeId} : Succeeds (copyDeep root) w fun _ _ => True := by
  refine Succeeds.bind (succeeds_get ?_)
  refine Succeeds.next (Succeeds.forM (fun _ _ => True) trivial fun _ i v _ _ => ?_) fun _ _ _ =>
    .pure trivial
  exact Succeeds.bind (succeeds_cell (Succeeds.bind (succeeds_addCell (.pure trivial))))

theorem succeeds_invert {c : NodeId} (hm : s.node .absent = .absent) (h : IsTest s c) (hg : Grows s w.store) :
    Succeeds (invert c) w fun _ w' => Grows w.store w'.store := by
  refine Succeeds.bind (succeeds_node ?_)
  cases h with
  | plain hc =>
    rw [hg.node_eq hc nofun]
    exact succeeds_addCell (grows_push _ _)
  | not hc =>
    rw [hg.node_eq hc nofun]
    exact .pure (.refl _)
  | @compare op l r hc hop =>
    have hc' := hg.node_eq hc nofun
    rw [hc']
    have hsucceeds : Succeeds (copyDeep c) w fun _ _ => True := succeeds_copyDeep
    obtain ⟨copy, w1, hcopy, -⟩ := hsucceeds
    obtain ⟨hg1, image, rfl, himage, hnew⟩ := returns_copyDeep hcopy
    have hnew' := hnew fun he => by rw [he, hm] at hc; cases hc
    have hnode : w1.store.node (image c) = .binary op (image l) (image r) := by
      rcases himage c with he | ⟨-, he⟩
      · have := inside_of_node (s := w.store) (i := c) (by rw [hc']; nofun)
        rw [he] at hnew'
        omega
      · rw [he (by rw [hc']; nofun), hc']
        rfl
    refine Succeeds.bind ⟨_, _, hcopy, Succeeds.bind (succeeds_node ?_)⟩
    rw [hnode]
    dsimp only
    rw [opposite_eq hop]
    exact Succeeds.bind (succeeds_modifyStore (.pure (hg1.setNode hnew')))

/-- Operands that are not chains of nothing. -/
inductive Solid : Flow.Term → Prop
  | leaf {e} : Solid (.leaf e)
  | chain {links last} : links ≠ [] → (∀ l ∈ links, Solid l.1) → Solid last → Solid (.chain links last)

theorem Solid.assemble {term : Flow.Term} (h : Solid term) (w : Work Unit) :
    Succeeds (assemble term) w fun _ w' => Grows w.store w'.store := by
  induction h generalizing w with
  | leaf =>
    unfold Flow.assemble
    exact .pure (.refl _)
  | @chain links last hne _ _ ih ihlast =>
    unfold Flow.assemble
    rw [if_neg (by simpa using hne)]
    refine (ihlast w).next fun e w1 hg => ?_
    have hlinks : ∀ (ls : List (Flow.Term × BinaryOp)), (∀ l ∈ ls, l ∈ links) → ∀ w1 : Work Unit,
        Succeeds (assembleLinks ls e) w1 fun _ w' => Grows w1.store w'.store := by
      intro ls
      induction ls with
      | nil =>
        intro _ w1
        unfold assembleLinks
        exact .pure (.refl _)
      | cons l ls ihls =>
        intro hsub w1
        unfold assembleLinks
        refine (ihls (fun x hx => hsub x (List.mem_cons_of_mem _ hx)) w1).next fun right w2 hg2 => ?_
        refine (ih l (hsub l List.mem_cons_self) w2).next fun left w3 hg3 => ?_
        exact succeeds_addCell ((hg2.trans hg3).trans (grows_push _ _))
    exact (hlinks links (fun _ h => h) w1).mono fun _ _ h => hg.trans h

/-- What is asked of the operands before the last one. -/
def SolidLinks (ls : List (Flow.Term × BinaryOp)) : Prop := ∀ l ∈ ls, Solid l.1

theorem SolidLinks.explicit {ls : List (Flow.Term × BinaryOp)} {e : NodeId} (h : SolidLinks ls)
    (hne : ls ≠ []) :
    Solid (Flow.explicit ls e) := by
  unfold Flow.explicit
  rw [List.span_eq_takeWhile_dropWhile]
  dsimp only
  split
  · exact .chain hne h .leaf
  · rename_i hsplit
    simp only [Bool.or_eq_true, List.isEmpty_iff, not_or] at hsplit
    exact .chain hsplit.1 (fun l hl => h l (List.takeWhile_subset _ hl))
      (.chain hsplit.2 (fun l hl => h l (List.dropWhile_subset _ hl)) .leaf)

/-! ## Operands -/

/-- The operands before the last one, as they are looked for among the blocks from `a` up to `b`. -/
abbrev linksFrom (s : Store) (block : Nat → NodeId) (t : Terminators)
    (inner : List NodeId → Terminators → Edit Terms)
    (a b fuel i start : Nat) : Edit (List (Flow.Term × BinaryOp)) :=
  termsFrom inner (segment block a b) t (blockIndex s (block b)) fuel i start

section
variable (ht : Stretch s block last t b far) (hg : Grows s w.store)
  {inner : List NodeId → Terminators → Edit Terms}
  {ok ok' : Bool}
include ht hg

theorem Stretch.succeeds_inverted {c : NodeId} {k : Bool} (h : IsTest s c) :
    Succeeds (if k then invert c else pure c) w fun _ w' => Grows w.store w'.store := by
  cases k with
  | true => exact succeeds_invert ht.inOrder.missing h hg
  | false => exact .pure (.refl _)

theorem Stretch.operandTerm {op : BinaryOp} (ham : a < m) (hJ : Leaps s (IsTest s) block (m - 1) j)
    (hmj : m < j) (hj : j ≤ last)
    (hone : m = a + 1 → ok = true)
    (hinner : a + 1 < m → ∀ t', Stretch s block last t' m j →
      SucceedsIf ok (inner (segment block a m) t') w fun r => r.1 ≠ [] ∧ SolidLinks r.1) :
    SucceedsIf ok (operandTerm inner (segment block a m) op (block (m - 1)) (block m) t) w Solid := by
  obtain ⟨c, slot, hc, hexit⟩ := hJ.exitNode hg
  rw [Nat.sub_add_cancel (by omega)] at hexit
  unfold Flow.operandTerm
  rw [length_segment]
  split
  · rename_i h1
    rw [hone (by simp at h1; omega)]
    refine .after hexit (.after (ht.isInverted hj) ?_)
    have hleaf : SucceedsIf true ((if block j == t.yes then invert c else pure c) >>= fun e =>
        pure (.leaf e)) w Solid :=
      Succeeds.next (ht.succeeds_inverted hg hc) fun e w' hg' => .pure ⟨hg', .leaf⟩
    revert hleaf
    cases block j == t.yes <;> exact id
  · rename_i h1
    have hterm : ∃ t', Stretch s block last t' m j ∧
        Returns (operandTerminators op (block (m - 1)) (block m)) w t' w := by
      refine ⟨if op == .or then ⟨.absent, block j, block m⟩ else ⟨.absent, block m, block j⟩, ?_,
        hexit.ofBind rfl⟩
      split
      · exact ⟨ht.inOrder, rfl, .inr ⟨rfl, rfl⟩, hmj, hj⟩
      · exact ⟨ht.inOrder, rfl, .inl ⟨rfl, rfl⟩, hmj, hj⟩
    obtain ⟨t', ht', hreturns⟩ := hterm
    refine .after hreturns ?_
    rw [← Bool.and_true ok]
    exact (hinner (by simp at h1; omega) t' ht').bind fun _ r w' _ hr => .pure (.chain hr.1 hr.2 .leaf)

theorem Stretch.lastOperand (hJ : Leaps s (IsTest s) block k j) (hj : j ≤ last) :
    SucceedsIf true (lastOperand (block k) t) w fun _ => True := by
  obtain ⟨c, slot, hc, hexit⟩ := hJ.exitNode hg
  refine .after hexit (.after (ht.isInverted hj) ?_)
  exact (ht.succeeds_inverted hg hc).mono fun e w' hg' => ⟨hg', trivial⟩

omit ht hg in
theorem linksFrom_step (hi : a + i + 1 < b) (h : Returns (endOf s block t a b i start) w none w) :
    linksFrom s block t inner a b (fuel + 1) i start w =
      linksFrom s block t inner a b fuel (i + 1) start w := by
  rw [linksFrom, termsFrom, length_segment, if_pos (by omega), h.step]

theorem Stretch.linksFrom_passes (him : i ≤ m) (hm : a + m < b) (hi : start < i)
    (hpass : ∀ k, i ≤ k → k < m → ∃ j, Leaps s (IsTest s) block (a + k) j ∧ j < b) :
    linksFrom s block t inner a b (fuel + (m - i)) i start w =
      linksFrom s block t inner a b fuel m start w := by
  induction hk : m - i generalizing i with
  | zero =>
    obtain rfl : i = m := by omega
    rfl
  | succ d ih =>
    obtain ⟨j, hJ, hj⟩ := hpass i (Nat.le_refl _) (by omega)
    rw [← Nat.add_assoc, linksFrom_step (by omega) (ht.endOf_passed hg (by omega) hJ hj (by omega))]
    exact ih (by omega) (by omega) (fun k hk hk' => hpass k (by omega) hk') (by omega)

theorem Stretch.linksFrom_cut (hi : a + i + 1 < b) (hstart : start < m) (hm : a + m < b)
    (hop : Returns (endOf s block t a b i start) w (some (start, m)) w)
    (hJ : Leaps s (IsTest s) block (a + m - 1) j) (hj : j ≤ last)
    (hterm : ∀ op, SucceedsIf ok (Flow.operandTerm inner (segment block (a + start) (a + m)) op
      (block (a + m - 1))
      (block (a + m)) t) w Solid)
    (hrest : ok = true → ∀ w', Grows w.store w'.store →
      SucceedsIf ok' (linksFrom s block t inner a b fuel m m) w' SolidLinks) :
    SucceedsIf (ok && ok') (linksFrom s block t inner a b (fuel + 1) i start) w
      fun ls => ls ≠ [] ∧ SolidLinks ls := by
  have hfar := ht.near
  have hlast := ht.bound
  obtain ⟨c, slot, -, hexit⟩ := hJ.exitNode hg
  rw [linksFrom, termsFrom, length_segment, if_pos (by omega)]
  refine .after hop ?_
  dsimp only
  rw [between_segment (by omega), getLast?_segment (by omega)]
  refine .after (ht.inOrder.positionOf (by omega) (by omega) (by omega)) ?_
  have hnext : Returns (Pass.atPosition (segment block a b) (((a + m - 1 - a : Nat) : Int) + 1)) w
      (block (a + m)) w := by
    rw [show ((a + m - 1 - a : Nat) : Int) + 1 = (m : Nat) by omega]
    exact returns_atSegment hm
  refine .after hnext (.after (hexit.ofBind ((ht.isInverted hj).ofBind rfl)) ?_)
  rw [show a + m - 1 - a + 1 = m by omega]
  refine (hterm _).bind fun hok term w1 hg1 hsolid => ?_
  rw [← Bool.and_true ok']
  refine (hrest hok w1 hg1).bind fun _ ls w2 _ hls => .pure ⟨nofun, fun l hl => ?_⟩
  cases hl with
  | head => exact hsolid
  | tail _ hl => exact hls l hl

theorem Stretch.linksFrom_fails (hm : a + m + 1 < b) (hfuel : m < fuel + i) (hstart : start < i) (him : i ≤ m)
    (hpass : ∀ k, i ≤ k → k ≤ m →
      ∃ j, Leaps s (IsTest s) block (a + k) j ∧ (j < b ∧ k ≠ m ∨ b < j ∧ j ≠ far ∧ j ≤ last)) :
    Fails (linksFrom s block t inner a b fuel i start) w := by
  induction fuel generalizing i with
  | zero => omega
  | succ fuel ih =>
    obtain ⟨j, hJ, ⟨hj, hne⟩ | ⟨hj, hne, hj'⟩⟩ := hpass i (Nat.le_refl _) him
    · rw [Fails, linksFrom_step (by omega) (ht.endOf_passed hg (by omega) hJ hj (by omega))]
      exact ih (by omega) (by omega) (by omega) fun k hk hk' => hpass k (by omega) hk'
    · rw [linksFrom, termsFrom, length_segment, if_pos (by omega)]
      exact (ht.endOf_fails hg (by omega) hJ hj hne hj').bind

end

/-! ## Whole conditions -/

variable {l r c : Condition} {op around : Connective}

/-- If an operand is cut off before it ends, its first blocks lead behind the end that was found. -/
theorem Stretch.terms_fails (ht : Stretch s block last t (a + m) far) (hg : Grows s w.store) (hj : l.IsJoined)
    (hroot : l.root ≠ some op) (hstarts : l.startsPlain = false)
    (hl : l.LiesAt (Leaps s (IsTest s) block) op far a)
    (hlead : l.lead op < m) (hm : m < l.size) (hfar : a + l.size < far) :
    Fails (terms depth (segment block a (a + m)) t) w := by
  have hlast := ht.bound
  cases depth with
  | zero => exact ⟨_, _, rfl⟩
  | succ depth =>
    cases l with
    | test => cases hstarts
    | join op' x y =>
      have hne : op' ≠ op := fun he => hroot (congrArg some he)
      rw [Condition.lead, if_neg hne] at hlead
      rw [Condition.size] at hm hfar
      have hx := hl.1
      rw [if_neg hne] at hx
      refine (ht.terminatorIndex hg).fails (Fails.bind ?_)
      rw [length_segment, Nat.add_sub_cancel_left]
      obtain ⟨m, rfl⟩ : ∃ m', m = m' + 1 := ⟨m - 1, by omega⟩
      have hpos := x.size_pos
      obtain ⟨j, j', hJ, hlt, hJ', hends⟩ := hx.first hj.2.1 hj.1 hstarts
      have hxj : j ≤ a + x.size := by split at hends <;> omega
      have hj' : j' ≤ last := by split at hends <;> omega
      have hfirst := ht.endOf_first hg (show Leaps s (IsTest s) block (a + 0) j from hJ) hlt
        (by omega) hJ' hj'
      by_cases hstarts' : x.startsPlain = true
      · -- The first operand ends where the blocks of the whole one end, which is behind.
        rw [if_pos hstarts'] at hends
        rw [if_neg (by omega), if_neg (by omega)] at hfirst
        rw [termsFrom, length_segment, if_pos (by omega)]
        exact Fails.bind ⟨_, _, hfirst⟩
      · rw [if_neg hstarts'] at hends
        rw [if_pos (by omega)] at hfirst
        have hfails : Fails (linksFrom s block t (terms depth) a (a + (m + 1)) m 1 0) w := by
          refine ht.linksFrom_fails hg (m := x.size - 1) (by omega) (by omega) (by omega) (by omega)
            fun k _ hk => ?_
          obtain ⟨j, hJ, hj⟩ := hx.leads (k := k) (by omega)
          refine ⟨j, hJ, ?_⟩
          by_cases hkm : k = x.size - 1
          · subst hkm
            have hlast' := hx.last
            rw [Nat.add_sub_assoc hpos] at hlast'
            have := hJ.det ht.inOrder hlast' (by omega) (by omega)
            omega
          · omega
        rwa [Fails, ← linksFrom_step (by omega) hfirst] at hfails

/-- What the recursion promises of conditions of less than `n` comparisons. -/
def TakesApart (s : Store) (block : Nat → NodeId) (last n depth : Nat) : Prop :=
  ∀ {c : Condition} {op : Connective} {far a : Nat} {t : Terminators} {w : Work Unit},
    c.size < n → c.IsJoined →
    c.LiesAt (Leaps s (IsTest s) block) op far a → Stretch s block last t (a + c.size) far → Grows s w.store →
    SucceedsIf c.isClear (terms depth (segment block a (a + c.size)) t) w
      fun r => (c.isPlain = false → r.1 ≠ []) ∧ SolidLinks r.1

theorem TakesApart.operandTerm (hinner : TakesApart s block last n depth) {exit : Nat}
    (ht : Stretch s block last t b far) (hg : Grows s w.store) (hsize : c.size < n) (hj : c.IsJoined)
    (hl : c.LiesAt (Leaps s (IsTest s) block) op exit a) (hexit : a + c.size < exit) (hlast : exit ≤ last)
    (bop : BinaryOp) :
    SucceedsIf c.isClear (Flow.operandTerm (terms depth) (segment block a (a + c.size)) bop
      (block (a + c.size - 1))
      (block (a + c.size)) t) w Solid := by
  have hpos := c.size_pos
  refine ht.operandTerm hg (by omega) hl.last hexit hlast (fun hone => ?_) fun hmany t' ht' => ?_
  · cases c with
    | test => rfl
    | join _ x y =>
      have := x.size_pos
      have := y.size_pos
      rw [Condition.size] at hone
      omega
  · refine (hinner hsize hj hl ht' hg).mono fun r hr => ⟨hr.1 ?_, hr.2⟩
    cases c with
    | test => rw [Condition.size] at hmany; omega
    | join => rfl

section
variable {exit : Nat} (ht : Stretch s block last t b far) (hg : Grows s w.store) (hj : l.IsJoined)
  (hroot : l.root ≠ some op) (hl : l.LiesAt (Leaps s (IsTest s) block) op exit (a + start))
  (hend : a + start + l.size < b)
include ht hg hj hroot hl hend

theorem Stretch.linksFrom_lead {inner : List NodeId → Terminators → Edit Terms}
    (hstarts : l.isPlain = false → l.startsPlain = false) :
    linksFrom s block t inner a b (fuel + l.lead op) start start w =
      linksFrom s block t inner a b fuel (start + l.lead op) start w := by
  have hfar := ht.near
  have hlast := ht.bound
  cases hplain : l.isPlain with
  | true =>
    cases l with
    | test => rfl
    | join => cases hplain
  | false =>
    obtain ⟨j, j', hJ, hlt, hJ', hends⟩ := hl.first hj hroot hplain
    rw [if_neg (by simp [hstarts hplain])] at hends
    have hfirst := ht.endOf_first hg hJ hlt (by omega) hJ' (by omega)
    rw [if_pos (by omega)] at hfirst
    have hlead := Condition.lead_lt op l
    obtain ⟨d, hd⟩ : ∃ d, l.lead op = d + 1 :=
      ⟨_, (Nat.sub_add_cancel (Condition.lead_pos hroot hplain)).symm⟩
    rw [hd] at hlead ⊢
    rw [← Nat.add_assoc, linksFrom_step (by omega) hfirst,
      show fuel + d = fuel + (start + (d + 1) - (start + 1)) by omega]
    refine ht.linksFrom_passes hg (by omega) (by omega) (by omega) fun k hk hk' => ?_
    obtain ⟨j, hJ, -, hj⟩ := hl.beforeLead (k := k - start) (by omega)
    rw [show a + start + (k - start) = a + k by omega] at hJ
    exact ⟨j, hJ, by omega⟩

theorem Stretch.linksFrom_uneven (hstarts : l.startsPlain = false) (hexit : exit = b ∨ exit = far)
    (heven : l.endsEvenly op = false) :
    Fails (linksFrom s block t (terms depth) a b (fuel + 1) (start + l.lead op) start) w := by
  have hfar := ht.near
  have hlast := ht.bound
  have hplain : l.isPlain = false := by
    cases l with
    | test => cases heven
    | join => rfl
  have hlead := Condition.lead_pos hroot hplain
  obtain ⟨m, hm, hm', hJ, hop⟩ := ht.endOf_uneven hg hexit hj hl heven hend
  rw [Nat.add_assoc a] at hJ
  have hfails : SucceedsIf (false && true) (linksFrom s block t (terms depth) a b (fuel + 1)
    (start + l.lead op) start) w
      fun ls => ls ≠ [] ∧ SolidLinks ls := by
    refine ht.linksFrom_cut hg (by omega) (by omega) (by omega) hop hJ (by omega) (fun bop => ?_) nofun
    refine ht.operandTerm hg (by omega) hJ (by omega) (by omega) (by omega) fun _ t' ht' => ?_
    rw [← Nat.add_assoc] at ht' ⊢
    exact ht'.terms_fails hg hj hroot hstarts hl hm hm' (by omega)
  exact hfails

end

theorem Stretch.succeedsIf_linksFrom (ht : Stretch s block last t b far)
    (hinner : TakesApart s block last n depth)
    (hn : b ≤ a + n) {w : Work Unit} (hg : Grows s w.store) (hj : c.IsJoined)
    (hl : c.LiesAt (Leaps s (IsTest s) block) around far (a + start)) (hend : a + start + c.size = b)
    (hfuel : c.size ≤ fuel) :
    SucceedsIf c.isClear (linksFrom s block t (terms depth) a b fuel start start) w
      fun ls => (c.isPlain = false → ls ≠ []) ∧ SolidLinks ls := by
  have hfar := ht.near
  have hlast := ht.bound
  induction hsize : c.size using Nat.strongRecOn generalizing c start fuel w with
  | ind size ih =>
    cases c with
    | test =>
      rw [Condition.size] at hend hfuel
      obtain ⟨fuel, rfl⟩ : ∃ f, fuel = f + 1 := ⟨fuel - 1, by omega⟩
      rw [linksFrom, termsFrom, length_segment, if_neg (by omega)]
      exact .pure ⟨by simp [Condition.isPlain], by simp [SolidLinks]⟩
    | join op l r =>
      rw [Condition.size] at hsize hend hfuel
      have hpos' := r.size_pos
      have hleft := hl.1
      have hright := hl.2
      rw [Nat.add_assoc a] at hright
      -- Where the comparisons of the operand lead that decide it.
      obtain ⟨exit, hexit, hexit'⟩ : ∃ exit, exit =
          (if op = around then far else a + start + (l.size + r.size)) ∧
          (exit = b ∨ exit = far) := by
        refine ⟨_, rfl, ?_⟩
        split <;> omega
      rw [← hexit] at hleft
      have hcut : ∀ {o c' : Condition} {i f : Nat},
          o.IsJoined → o.LiesAt (Leaps s (IsTest s) block) op exit (a + start) →
          c'.IsJoined → c'.LiesAt (Leaps s (IsTest s) block) around far (a + (start + o.size)) →
          o.size + c'.size = l.size + r.size →
          i < start + o.size → Returns (endOf s block t a b i start) w
            (some (start, start + o.size)) w → c'.size ≤ f →
          SucceedsIf (o.isClear && c'.isClear) (linksFrom s block t (terms depth) a b (f + 1) i start) w
            fun ls => ls ≠ [] ∧ SolidLinks ls := by
        intro o c' i f hoj ho hcj hc hsizes hi hop hf
        have hopos := o.size_pos
        have hcpos := c'.size_pos
        have hlast' := ho.last
        rw [Nat.add_assoc a] at hlast'
        refine ht.linksFrom_cut hg (by omega) (by omega) (by omega) hop hlast' (by omega)
          (fun bop => ?_) fun _ w' hg' => ?_
        · have := hinner.operandTerm ht hg (c := o) (by omega) hoj ho (by omega) (by omega) bop
          rwa [Nat.add_assoc a] at this
        · exact (ih c'.size (by omega) (hg.trans hg') hcj hc (by omega) hf rfl).mono fun ls hls => hls.2
      by_cases hfirst : l.isPlain = false ∧ l.startsPlain = true
      · -- The first block leads behind the operand.
        obtain ⟨hplain, hstarts⟩ := hfirst
        obtain ⟨j, j', hJ, hlt, hJ', hends⟩ := hleft.first hj.2.1 hj.1 hplain
        rw [if_pos hstarts] at hends
        obtain ⟨rfl, rfl⟩ := hends
        have hop := ht.endOf_first hg hJ hlt (by omega) hJ' (by omega)
        rw [if_neg (by omega), if_pos hexit', show a + start + l.size - a = start + l.size by omega] at hop
        obtain ⟨f, rfl⟩ : ∃ f, fuel = f + 1 := ⟨fuel - 1, by omega⟩
        rw [Condition.isClear, hstarts, Bool.true_or, Bool.true_and]
        exact (hcut hj.2.1 hleft hj.2.2 hright rfl (by omega) hop (by omega)).mono fun ls hls =>
          ⟨fun _ => hls.1, hls.2⟩
      · have hstarts : l.isPlain = false → l.startsPlain = false := by simpa using hfirst
        have hlead := Condition.lead_lt op l
        obtain ⟨f, rfl⟩ : ∃ f, fuel = f + 1 + l.lead op := ⟨fuel - 1 - l.lead op, by omega⟩
        refine .ofEq (ht.linksFrom_lead hg hj.2.1 hj.1 hleft (by omega) hstarts) ?_
        cases heven : l.endsEvenly op with
        | true =>
          -- The blocks that decide reach the end of the operand, and take the comparisons after it along.
          have hop := ht.endOf_even hg hj.2.2 (hexit ▸ hleft) hl.2 heven (by omega)
          obtain ⟨hoj, hcj⟩ := hj.2.1.extend hj.1 hj.2.2
          obtain ⟨ho, hc⟩ := Condition.LiesAt.extend (hexit ▸ hleft) hl.2
          rw [← hexit] at ho
          rw [Nat.add_assoc a] at hc
          have hsizes := Condition.size_extend op l r
          have hlead' := Condition.lead_lt_extend op l r
          have hclear := hcut hoj ho hcj hc hsizes (by omega) hop (f := f) (by omega)
          rw [Condition.isClear_extend (by simp [heven]), Condition.isClear_remaining] at hclear
          rw [Condition.isClear, heven, Bool.or_true, Bool.true_and]
          exact hclear.mono fun ls hls => ⟨fun _ => hls.1, hls.2⟩
        | false =>
          have hplain : l.isPlain = false := by
            cases l with
            | test => cases heven
            | join => rfl
          rw [Condition.isClear, hstarts hplain, heven, Bool.or_false, Bool.false_and, Bool.false_and]
          exact ht.linksFrom_uneven hg hj.2.1 hj.1 hleft (by omega) (hstarts hplain) hexit' heven

/-- A condition is taken apart if it is clear, and otherwise the step fails. -/
theorem takesApart (n : Nat) : ∀ {depth : Nat}, n ≤ depth + 1 → TakesApart s block last n depth := by
  induction n with
  | zero =>
    intro depth _ c op far a t w hsize
    omega
  | succ n ih =>
    intro depth hdepth c op far a t w hsize hj hl ht hg
    have hpos := c.size_pos
    obtain ⟨depth, rfl⟩ : ∃ d, depth = d + 1 := ⟨depth - 1, by omega⟩
    refine .after (ht.terminatorIndex hg) ?_
    rw [length_segment, Nat.add_sub_cancel_left, ← Bool.and_true c.isClear]
    refine (ht.succeedsIf_linksFrom (ih (by omega)) (by omega) hg hj hl rfl (Nat.le_refl _)).bind
      fun _ ls w1 hg1 hls => ?_
    rw [getLast?_segment (by omega)]
    exact (ht.lastOperand (hg.trans hg1) hl.last ht.bound).bind fun _ e w2 _ _ => .pure hls

end

/-! ## Compiled conditions -/

section
variable {s : Store} {block : Nat → NodeId} {p yes no : Nat} {t : Condition}

theorem Condition.CompiledAt.liesAt (h : t.CompiledAt s block p yes no) (hyes : p + t.size ≤ yes)
    (hno : p + t.size ≤ no) :
    (yes = p + t.size → t.LiesAt (Leaps s (IsTest s) block) .and no p) ∧
      (no = p + t.size → yes ≠ no → t.LiesAt (Leaps s (IsTest s) block) .or yes p) := by
  induction t generalizing p yes no with
  | test c =>
    obtain ⟨i, h⟩ := h
    simp only [Condition.size] at hyes hno ⊢
    refine ⟨fun hy => ?_, fun hn hne => ?_⟩
    · rw [if_pos hy] at h
      obtain ⟨slot, hb⟩ := h.2.blockOf
      exact ⟨[], i, slot, hb, h.1.isTest⟩
    · rw [if_neg (by omega)] at h
      obtain ⟨slot, hb⟩ := h.2.blockOf
      exact ⟨[], i, slot, hb, h.1.isTest⟩
  | join op l r ihl ihr =>
    have hpos := r.size_pos
    simp only [Condition.size] at hyes hno ⊢
    cases op with
    | and =>
      obtain ⟨hl, -⟩ := ihl h.1 (by omega) (by omega)
      obtain ⟨hr, hr'⟩ := ihr h.2 (by omega) (by omega)
      refine ⟨fun hy => ⟨hl rfl, hr (by omega)⟩, fun hn hne => ⟨?_, hr' (by omega) hne⟩⟩
      rw [if_neg (by simp), ← hn]
      exact hl rfl
    | or =>
      obtain ⟨-, hl⟩ := ihl h.1 (by omega) (by omega)
      obtain ⟨hr, hr'⟩ := ihr h.2 (by omega) (by omega)
      refine ⟨fun hy => ⟨?_, hr (by omega)⟩, fun hn hne => ⟨hl rfl (by omega), hr' (by omega) hne⟩⟩
      rw [if_neg (by simp), ← hy]
      exact hl rfl (by omega)

end

/-- An expression with the truth of a condition is recovered from the blocks of the condition exactly
if the condition is clear once its operands are joined; otherwise recovery fails. -/
theorem recovers_iff_isClear {s : Store} {t : Condition} {body : List NodeId} {yes no : NodeId}
    (h : ShortCircuit s t body yes no) :
    (∃ e w', Returns (compile body ⟨.absent, yes, no⟩) ⟨s, ()⟩ e w' ∧
      ∀ (V : Type) [LinearOrder V] (v : Valuation V), ∃ x, Denotes w'.store v e x ∧ v.isTrue x = t.holds v) ↔
      t.joined.isClear = true := by
  have hlen := h.length
  have hl := ((h.compiled.liesAt (by omega) (by omega)).1 (Nat.zero_add _).symm).joined
  have ht : Stretch s (placed body yes no) (t.size + 1) ⟨.absent, yes, no⟩ (0 + t.joined.size)
    (t.size + 1) := by
    rw [Nat.zero_add, Condition.size_joined]
    exact ⟨h.inOrder, rfl, .inl ⟨h.atYes.symm, h.atNo.symm⟩, Nat.lt_succ_self _, Nat.le_refl _⟩
  have hapart : TakesApart s (placed body yes no) (t.size + 1) (t.size + 1) (body.length + 1) :=
    takesApart _ (by omega)
  have hterms := hapart (w := ⟨s, ()⟩) (by rw [Condition.size_joined]; omega)
    Condition.isJoined_joined hl ht (.refl _)
  rw [Nat.zero_add, Condition.size_joined, h.segment_eq] at hterms
  cases hclear : t.joined.isClear with
  | false =>
    rw [hclear] at hterms
    refine ⟨?_, nofun⟩
    rintro ⟨e, w', hrun, -⟩
    exact absurd hrun (Fails.not_returns (Fails.bind hterms))
  | true =>
    rw [hclear] at hterms
    refine ⟨fun _ => rfl, fun _ => ?_⟩
    obtain ⟨⟨links, e⟩, w1, hr, -, -, hsolid⟩ := hterms
    have hrun : Succeeds (compile body ⟨.absent, yes, no⟩) ⟨s, ()⟩ fun _ _ => True := by
      refine Succeeds.bind ⟨_, _, hr, ?_⟩
      dsimp only
      split
      · exact .pure trivial
      · rename_i hne
        exact ((hsolid.explicit (by simpa using hne)).assemble w1).mono fun _ _ _ => trivial
    obtain ⟨e', w', hrun, -⟩ := hrun
    exact ⟨e', w', hrun, fun V _ v => ShortCircuit.agrees h hrun v⟩

/-! ## Examples -/

theorem Condition.compiledAt_kept {s : Store} {block : Nat → NodeId} {p no : Nat} {c : Comparison}
    {i : NodeId}
    (hc : c.IsAt s i) (ht : Tests s (block p) i (block (p + 1)) (block no)) :
    (Condition.test c).CompiledAt s block p (p + 1) no := by
  refine ⟨i, ?_⟩
  rw [if_pos rfl]
  exact ⟨hc, ht⟩

theorem Condition.compiledAt_negated {s : Store} {block : Nat → NodeId} {p yes no : Nat}
    {c : Comparison} {i : NodeId}
    (hyes : yes ≠ p + 1) (hc : c.negate.IsAt s i) (ht : Tests s (block p) i (block (p + 1)) (block yes)) :
    (Condition.test c).CompiledAt s block p yes no := by
  refine ⟨i, ?_⟩
  rw [if_neg hyes]
  exact ⟨hc, ht⟩

def slotAt (k : Nat) : Node := .identifier { kind := .slot, slot := k }

/-- Compares slot `2k` with the one after it. -/
def slotTest (k : Nat) : Condition :=
  .test ⟨.less, slotAt (2 * k), slotAt (2 * k + 1), rfl, .inl ⟨_, rfl⟩, .inl ⟨_, rfl⟩⟩

/-- Blocks that compare two slots each, with the operator and the position that the block leads to if
the comparison fails, and two blocks after them. -/
def slotBlocks (rows : List (BinaryOp × Nat)) : Store :=
  let n := rows.length
  numbered ((List.range (2 * n)).map slotAt ++
    rows.mapIdx (fun k row => .binary row.1 ⟨2 * k + 1⟩ ⟨2 * k + 2⟩) ++
    rows.mapIdx (fun k row => .test ⟨2 * n + k + 1⟩ ⟨4 * n + k + 2⟩ ⟨4 * n + row.2 + 1⟩ none) ++
    (List.range (n + 2)).map fun k => .block { index := k, exit := if k < n then ⟨3 * n + k + 1⟩
      else .absent })

/-- `((a and b) or c) and d` -/
def evenCondition : Condition :=
  .join .and (.join .or (.join .and (slotTest 0) (slotTest 1)) (slotTest 2)) (slotTest 3)

def evenBlocks : Store := slotBlocks [(.less, 2), (.greaterEqual, 3), (.less, 5), (.less, 5)]

theorem shortCircuit_even : ShortCircuit evenBlocks evenCondition [⟨17⟩, ⟨18⟩, ⟨19⟩, ⟨20⟩] ⟨21⟩ ⟨22⟩ where
  missing := rfl
  length := rfl
  ordered := by decide
  yesBlock := ⟨_, rfl⟩
  noBlock := ⟨_, rfl⟩
  compiled := by
    refine ⟨⟨⟨?_, ?_⟩, ?_⟩, ?_⟩
    · exact Condition.compiledAt_kept (i := ⟨9⟩) ⟨_, _, rfl, rfl, rfl⟩ ⟨_, _, rfl, rfl, rfl⟩
    · exact Condition.compiledAt_negated (i := ⟨10⟩) (by decide) ⟨_, _, rfl, rfl, rfl⟩ ⟨_, _, rfl, rfl, rfl⟩
    · exact Condition.compiledAt_kept (i := ⟨11⟩) ⟨_, _, rfl, rfl, rfl⟩ ⟨_, _, rfl, rfl, rfl⟩
    · exact Condition.compiledAt_kept (i := ⟨12⟩) ⟨_, _, rfl, rfl, rfl⟩ ⟨_, _, rfl, rfl, rfl⟩

theorem recovers_even : ShortCircuit evenBlocks evenCondition [⟨17⟩, ⟨18⟩, ⟨19⟩, ⟨20⟩] ⟨21⟩ ⟨22⟩ ∧
    evenCondition.joined.isClear = true ∧
    ∃ e w', Returns (compile [⟨17⟩, ⟨18⟩, ⟨19⟩, ⟨20⟩] ⟨.absent, ⟨21⟩, ⟨22⟩⟩) ⟨evenBlocks, ()⟩ e w' ∧
      ∀ (V : Type) [LinearOrder V] (v : Valuation V), ∃ x, Denotes w'.store v e x ∧
        v.isTrue x = evenCondition.holds v :=
  ⟨shortCircuit_even, rfl, (recovers_iff_isClear shortCircuit_even).mpr rfl⟩

/-- `((a and b) or (c and (d or e))) and f`, where `c` decides the first operand and `d` does not. -/
def unevenCondition : Condition :=
  .join .and (.join .or (.join .and (slotTest 0) (slotTest 1))
    (.join .and (slotTest 2) (.join .or (slotTest 3) (slotTest 4)))) (slotTest 5)

def unevenBlocks : Store :=
  slotBlocks [(.less, 2), (.greaterEqual, 5), (.less, 7), (.greaterEqual, 5), (.less, 7), (.less, 7)]

theorem uneven_not_recovered :
    ShortCircuit unevenBlocks unevenCondition [⟨25⟩, ⟨26⟩, ⟨27⟩, ⟨28⟩, ⟨29⟩, ⟨30⟩] ⟨31⟩ ⟨32⟩ ∧
      ((compile [⟨25⟩, ⟨26⟩, ⟨27⟩, ⟨28⟩, ⟨29⟩, ⟨30⟩] ⟨.absent, ⟨31⟩, ⟨32⟩⟩).run' unevenBlocks).1 =
        .error (.broken "an operand leads to a terminator") := by
  refine ⟨⟨rfl, rfl, by decide, ⟨_, rfl⟩, ⟨_, rfl⟩, ⟨⟨?_, ?_⟩, ?_, ?_, ?_⟩, ?_⟩, by decide +kernel⟩
  · exact Condition.compiledAt_kept (i := ⟨13⟩) ⟨_, _, rfl, rfl, rfl⟩ ⟨_, _, rfl, rfl, rfl⟩
  · exact Condition.compiledAt_negated (i := ⟨14⟩) (by decide) ⟨_, _, rfl, rfl, rfl⟩ ⟨_, _, rfl, rfl, rfl⟩
  · exact Condition.compiledAt_kept (i := ⟨15⟩) ⟨_, _, rfl, rfl, rfl⟩ ⟨_, _, rfl, rfl, rfl⟩
  · exact Condition.compiledAt_negated (i := ⟨16⟩) (by decide) ⟨_, _, rfl, rfl, rfl⟩ ⟨_, _, rfl, rfl, rfl⟩
  · exact Condition.compiledAt_kept (i := ⟨17⟩) ⟨_, _, rfl, rfl, rfl⟩ ⟨_, _, rfl, rfl, rfl⟩
  · exact Condition.compiledAt_kept (i := ⟨18⟩) ⟨_, _, rfl, rfl, rfl⟩ ⟨_, _, rfl, rfl, rfl⟩

end LuaLift.Proofs
