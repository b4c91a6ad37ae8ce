import LuaLift.Proofs.StatementLists

/-! # Chains of choices

An `if` that is all there is in the `else` of another one becomes an `elseif` of it. `Traces` gives
the conditions that statements evaluate and the statements that run, up to any point and for all
outcomes of the conditions: they stay the same. A node is calm if tidying does nothing at it, and a
walk leaves nothing but calm nodes behind (`Later`). -/
namespace LuaLift.Proofs
open Tree Pass Tidy

variable {s t t' t'' : Store} {P E : NodeId → Prop} {root i j e c b : NodeId} {d : Nat} {w : Work Unit}
  {xs ys : List NodeId} {n : Node}

/-! ## What a tree runs -/

inductive Event where
  | test (condition : NodeId) (holds : Bool)
  | run (statement : NodeId)
  | finish

/-- What is still to be run. -/
inductive Duty where
  | statement (i : NodeId)
  | block (list : NodeId)
  | choice (clauses : List (NodeId × NodeId)) (otherwise : NodeId)
  /-- the end of a round of a loop -/
  | again (loop : NodeId)

/-- What is left after a `break`. -/
def afterLoop : List Duty → List Duty
  | [] => []
  | .again _ :: k => k
  | _ :: k => afterLoop k

def clause? (s : Store) (i : NodeId) : Option (NodeId × NodeId) :=
  match s.node i with
  | .elseIf c b => some (c, b)
  | _ => none

def choiceOf (s : Store) (i : NodeId) : Duty :=
  match s.node i with
  | .ifElse c b xs e => .choice ((c, b) :: xs.filterMap (clause? s)) e
  | _ => .statement i

/-- The node that says what a duty is. -/
def Duty.node : Duty → NodeId
  | .statement i | .block i | .again i => i
  | .choice .. => .absent

/-- What happens next, if a condition that is tested `holds`, and what is to be run then. A loop over
numbers or an iterator tests whether there is one more value. -/
def next (holds : Bool) (k : List Duty) : Duty → Node → Option (List Event × List Duty)
  | .block _, .list _ xs => some ([], xs.map .statement ++ k)
  | .choice [] e, _ => some ([], .block e :: k)
  | .choice ((c, b) :: cs) e, _ => some ([.test c holds], (if holds then .block b else .choice cs e) :: k)
  | .statement i, .assignment .. | .statement i, .call .. => some ([.run i], k)
  | .statement i, .ret _ => some ([.run i], [])
  | .statement i, .breakLoop => some ([.run i], afterLoop k)
  | .statement i, .whileLoop c b => some ([.test c holds], if holds then .block b :: .again i :: k else k)
  | .statement i, .numericFor _ _ b | .statement i, .iteratorFor _ _ b =>
    some ([.test i holds], if holds then .block b :: .again i :: k else k)
  | .statement i, .repeatLoop _ b => some ([], .block b :: .again i :: k)
  | .again i, .repeatLoop c b => some ([.test c holds], if holds then k else .block b :: .again i :: k)
  | .again i, .whileLoop .. | .again i, .numericFor .. | .again i, .iteratorFor .. =>
    some ([], .statement i :: k)
  | _, _ => none

/-- The events of a run up to any point, for some outcomes of its conditions. -/
inductive Traces (s : Store) : List Duty → List Event → Prop
  | cut {k} : Traces s k []
  | finish : Traces s [] [.finish]
  | choose {i k tr} : isIf (s.node i) = true → Traces s (choiceOf s i :: k) tr →
    Traces s (.statement i :: k) tr
  | step {x k k' o es tr} : next o k x (s.node x.node) = some (es, k') → Traces s k' tr →
      Traces s (x :: k) (es ++ tr)

variable {x : Duty} {k k' : List Duty} {tr : List Event}

/-- An `if` in an `else` may as well stand at the end of the clauses. -/
theorem traces_joined {cs : List (NodeId × NodeId)} {kind : ListKind} (he : s.node e = .list kind [j])
    (hj : s.node j = .ifElse c b xs i) :
    Traces s (.choice cs e :: k) tr ↔
      Traces s (.choice (cs ++ (c, b) :: xs.filterMap (clause? s)) i :: k) tr := by
  have hchoice : choiceOf s j = .choice ((c, b) :: xs.filterMap (clause? s)) i := by rw [choiceOf, hj]
  have hblock : ∀ holds, next holds k (.block e) (s.node e) = some ([], .statement j :: k) :=
    fun _ => by simp [next, he]
  induction cs generalizing tr with
  | nil =>
    rw [List.nil_append, ← hchoice]
    refine ⟨fun h => ?_, fun h => ?_⟩
    · cases h with
      | cut => exact .cut
      | step hn h =>
        cases hn
        cases h with
        | cut => exact .cut
        | step hn h =>
          cases (hblock _).symm.trans hn
          cases h with
          | cut => exact .cut
          | choose _ h => exact h
          | step hn _ => simp [Duty.node, hj, next] at hn
    · have hopen : next true k (.choice [] e) (s.node (Duty.choice [] e).node) = some ([],
          .block e :: k) := rfl
      exact .step hopen (.step (hblock true) (.choose (by rw [hj]; rfl) h))
  | cons a cs ih =>
    refine ⟨fun h => ?_, fun h => ?_⟩ <;> cases h with
    | cut => exact .cut
    | @step _ _ _ holds _ _ hn h =>
      cases hn
      cases holds with
      | true => exact .step (o := true) rfl h
      | false => exact .step (o := false) rfl (by first | exact ih.mp h | exact ih.mpr h)

/-! ## The tree while choices are joined -/

/-- Nodes of trees of statements without constructors. -/
def isPlain : Node → Bool
  | .absent | .table .. | .block _ => false
  | _ => true

/-- The nodes of the tree at the start, and those that were added. -/
def Present (s : Store) (P : NodeId → Prop) (t : Store) (i : NodeId) : Prop :=
  P i ∨ s.cells.size ≤ i.index ∧ i.index < t.cells.size

/-- What holds of the store `t` while the choices of the tree `P` in `s` are joined. -/
structure Flattened (s : Store) (P : NodeId → Prop) (t : Store) : Prop where
  size : s.cells.size ≤ t.cells.size
  same : ∀ i, P i → isIf (s.node i) = false → t.node i = s.node i
  choice : ∀ i, P i → isIf (s.node i) = true → ∃ c b xs e, t.node i = .ifElse c b xs e ∧
    P c ∧ P b ∧ P e ∧ ∀ x ∈ xs, Present s P t x
  added : ∀ i, s.cells.size ≤ i.index → i.index < t.cells.size → ∃ c b, t.node i = .elseIf c b ∧ P c ∧ P b

/-- All that a duty runs is in the tree. -/
def Duty.Within (P : NodeId → Prop) : Duty → Prop
  | .statement i | .again i | .block i => P i
  | .choice cs e => (∀ c ∈ cs, P c.2) ∧ P e

theorem within_afterLoop (h : ∀ x ∈ k, x.Within P) : ∀ x ∈ afterLoop k, x.Within P := by
  fun_induction afterLoop k with
  | case1 => exact h
  | case2 _ k => exact (List.forall_mem_cons.mp h).2
  | case3 _ k _ ih => exact ih (List.forall_mem_cons.mp h).2

theorem within_next {holds : Bool} {es : List Event} (hx : x.Within P) (hk : ∀ y ∈ k, y.Within P)
    (hn : ∀ c ∈ n.children, P c) (h : next holds k x n = some (es, k')) : ∀ y ∈ k', y.Within P := by
  have hbody : ∀ {i b}, P i → P b → ∀ y ∈ Duty.block b :: .again i :: k, y.Within P := fun hi hb =>
    List.forall_mem_cons.mpr ⟨hb, List.forall_mem_cons.mpr ⟨hi, hk⟩⟩
  unfold next at h
  split at h <;> cases h
  case h_1 =>
    refine List.forall_mem_append.mpr ⟨fun y hy => ?_, hk⟩
    obtain ⟨z, hz, rfl⟩ := List.mem_map.mp hy
    exact hn z hz
  case h_2 => exact List.forall_mem_cons.mpr ⟨hx.2, hk⟩
  case h_3 =>
    obtain ⟨hb, hcs⟩ := List.forall_mem_cons.mp hx.1
    refine List.forall_mem_cons.mpr ⟨?_, hk⟩
    cases holds
    exacts [⟨hcs, hx.2⟩, hb]
  case h_4 | h_5 => exact hk
  case h_6 => exact nofun
  case h_7 => exact within_afterLoop hk
  case h_11 => exact hbody hx (hn _ (by simp [Node.children]))
  case h_12 =>
    cases holds
    exacts [hbody hx (hn _ (by simp [Node.children])), hk]
  case h_13 | h_14 | h_15 => exact List.forall_mem_cons.mpr ⟨hx, hk⟩
  all_goals
    cases holds
    exacts [hk, hbody hx (hn _ (by simp [Node.children]))]

theorem isIf_iff : isIf n = true ↔ ∃ c b xs e, n = .ifElse c b xs e := by
  cases n <;> simp [isIf]

namespace Flattened
variable (hP : ∀ i, P i → isPlain (s.node i) = true ∧ ∀ c ∈ (s.node i).children, P c) (ht : Flattened s P t)
include ht

theorem isIf_eq (hi : P i) : isIf (t.node i) = isIf (s.node i) := by
  cases h : isIf (s.node i) with
  | false => rw [ht.same i hi h, h]
  | true =>
    obtain ⟨_, _, _, _, hn, -⟩ := ht.choice i hi h
    rw [hn, isIf]

theorem branches (hi : P i) (hn : t.node i = .ifElse c b xs e) :
    P c ∧ P b ∧ P e ∧ ∀ x ∈ xs, Present s P t x := by
  obtain ⟨_, _, _, _, hn', hparts⟩ := ht.choice i hi (by rw [← ht.isIf_eq hi, hn, isIf])
  cases hn.symm.trans hn'
  exact hparts

include hP

theorem parts_of_ne (hi : P i) (hif : isIf (t.node i) = false) : ∀ c ∈ (t.node i).children, P c := by
  rw [ht.same i hi (by rw [← ht.isIf_eq hi, hif])]
  exact (hP i hi).2

theorem choice_within (hi : P i) : (choiceOf t i).Within P := by
  unfold choiceOf
  split
  · rename_i c b xs e hn
    obtain ⟨-, hb, he, hxs⟩ := ht.branches hi hn
    refine ⟨List.forall_mem_cons.mpr ⟨hb, fun a ha => ?_⟩, he⟩
    obtain ⟨x, hx, ha⟩ := List.mem_filterMap.mp ha
    unfold clause? at ha
    split at ha
    · rename_i hx'
      cases ha
      cases hxs x hx with
      | inl hx => exact ht.parts_of_ne hP hx (by rw [hx']; rfl) _ (by simp [hx', Node.children])
      | inr hx =>
        obtain ⟨_, _, hx'', -, hb⟩ := ht.added x hx.1 hx.2
        cases hx'.symm.trans hx''
        exact hb
    · cases ha
  · exact hi

theorem transfer (ht' : Flattened s P t') (hchoice : ∀ i k tr, P i → Traces t' (choiceOf t i :: k) tr →
    Traces t' (choiceOf t' i :: k) tr) (hk : ∀ x ∈ k, x.Within P) (h : Traces t k tr) : Traces t' k tr := by
  induction h with
  | cut => exact .cut
  | finish => exact .finish
  | choose hif _ ih =>
    obtain ⟨hi, hk⟩ := List.forall_mem_cons.mp hk
    refine .choose (by rw [ht'.isIf_eq hi, ← ht.isIf_eq hi, hif]) (hchoice _ _ _ hi (ih ?_))
    exact List.forall_mem_cons.mpr ⟨ht.choice_within hP hi, hk⟩
  | @step x k k' holds es tr hn _ ih =>
    obtain ⟨hx, hrest⟩ := List.forall_mem_cons.mp hk
    cases x with
    | choice cs e =>
      have hn' : ∀ n, next holds k (.choice cs e) n = some (es, k') := fun n => by rw [← hn]; cases cs <;> rfl
      exact .step (hn' _) (ih (within_next (n := .absent) hx hrest nofun (hn' _)))
    | statement i | block i | again i =>
      cases hif : isIf (s.node i) with
      | false =>
        rw [Duty.node, ht.same _ hx hif] at hn
        exact .step (by rw [Duty.node, ht'.same _ hx hif]; exact hn)
          (ih (within_next hx hrest (hP _ hx).2 hn))
      | true =>
        obtain ⟨_, _, _, _, hif, -⟩ := ht.choice _ hx hif
        simp only [Duty.node, next, hif] at hn
        cases hn

end Flattened

/-- The `if` in the `else` of a choice has been joined to it. -/
inductive Absorbs (t t' : Store) (i : NodeId) : Prop
  | intro {c b xs e kind j c' b' xs' e'} (outer : t.node i = .ifElse c b xs e)
    (alone : t.node e = .list kind [j])
      (inner : t.node j = .ifElse c' b' xs' e') (apart : j ≠ i) (size : t'.cells.size = t.cells.size + 1)
      (others : ∀ x, x ≠ i → x.index < t.cells.size → t'.node x = t.node x)
      (branch : t'.node ⟨t.cells.size⟩ = .elseIf c' b')
      (joined : t'.node i = .ifElse c b (xs ++ ⟨t.cells.size⟩ :: xs') e')

section
variable (hP : ∀ i, P i → isPlain (s.node i) = true ∧ ∀ c ∈ (s.node i).children, P c) (ht : Flattened s P t)
include hP ht

theorem Flattened.inside (hi : Present s P t i) : i.index < t.cells.size := by
  cases hi with
  | inr hi => exact hi.2
  | inl hi =>
    refine Nat.lt_of_lt_of_le (inside_of_node fun h => ?_) ht.size
    have hplain := (hP i hi).1
    rw [h] at hplain
    cases hplain

theorem Flattened.absorb (hi : P i) (ha : Absorbs t t' i) :
    Flattened s P t' ∧ ∀ k tr, (∀ x ∈ k, x.Within P) → (Traces t k tr ↔ Traces t' k tr) := by
  obtain ⟨houter, halone, hinner, hapart, hsize, hothers, hbranch, hjoined⟩ := ha
  rename_i c b xs e kind j c' b' xs' e'
  have hkept : ∀ {x}, Present s P t x → x ≠ i → t'.node x = t.node x := fun hx hne =>
    hothers _ hne (ht.inside hP hx)
  have hpresent : ∀ {x}, Present s P t x → Present s P t' x := Or.imp_right (And.imp_right (by omega))
  obtain ⟨hc, hb, he, hxs⟩ := ht.branches hi houter
  have hj : P j :=
    ht.parts_of_ne hP he (by rw [halone]; rfl) j (by rw [halone]; exact List.mem_singleton_self j)
  obtain ⟨hc', hb', he', hxs'⟩ := ht.branches hj hinner
  have hclause : ∀ {ys : List NodeId}, (∀ x ∈ ys, Present s P t x) →
      ys.filterMap (clause? t') = ys.filterMap (clause? t) := by
    refine fun h => List.filterMap_congr fun x hx => ?_
    by_cases hxi : x = i
    · rw [hxi, clause?, clause?, houter, hjoined]
    · rw [clause?, clause?, hkept (h x hx) hxi]
  have hchosen : choiceOf t i = .choice ((c, b) :: xs.filterMap (clause? t)) e := by rw [choiceOf, houter]
  have hchosen' : choiceOf t' i =
      .choice ((c, b) :: xs.filterMap (clause? t) ++ (c', b') :: xs'.filterMap (clause? t)) e' := by
    have hnew : clause? t' ⟨t.cells.size⟩ = some (c', b') := by rw [clause?, hbranch]
    simp only [choiceOf, hjoined, List.filterMap_append, List.filterMap_cons_some hnew, hclause hxs,
      hclause hxs',
      List.cons_append]
  have hothers' : ∀ x, P x → x ≠ i → choiceOf t' x = choiceOf t x := by
    intro x hx hne
    unfold choiceOf
    rw [hkept (.inl hx) hne]
    split
    · rename_i hn
      rw [hclause (ht.branches hx hn).2.2.2]
    · rfl
  have ht' : Flattened s P t' := by
    refine ⟨by rw [hsize]; exact Nat.le_succ_of_le ht.size, fun x hx hif => ?_, fun x hx hif => ?_,
      fun x hx hx' => ?_⟩
    · rw [hkept (.inl hx) ?_, ht.same x hx hif]
      rintro rfl
      rw [← ht.isIf_eq hx, houter] at hif
      cases hif
    · by_cases hne : x = i
      · subst hne
        refine ⟨_, _, _, _, hjoined, hc, hb, he', List.forall_mem_append.mpr ⟨fun y hy => hpresent (hxs y hy),
          List.forall_mem_cons.mpr ⟨.inr ⟨ht.size, by simp [hsize]⟩, fun y hy => hpresent (hxs' y hy)⟩⟩⟩
      · obtain ⟨c1, b1, ys, e1, hn, hc1, hb1, he1, hys⟩ := ht.choice x hx hif
        exact ⟨c1, b1, ys, e1,
          by rw [hkept (.inl hx) hne, hn], hc1, hb1, he1, fun y hy => hpresent (hys y hy)⟩
    · by_cases hlast : x = ⟨t.cells.size⟩
      · exact ⟨c', b', hlast ▸ hbranch, hc', hb'⟩
      · have hlt : x.index < t.cells.size :=
          Nat.lt_of_le_of_ne (by omega) fun h => hlast (by cases x; cases h; rfl)
        obtain ⟨c1, b1, hn, hparts⟩ := ht.added x hx hlt
        have hne : x ≠ i := by
          rintro rfl
          cases houter.symm.trans hn
        exact ⟨c1, b1, by rw [hothers x hne hlt, hn], hparts⟩
  refine ⟨ht', fun k tr hk =>
    ⟨ht.transfer hP ht' (fun x k tr hx h => ?_) hk, ht'.transfer hP ht (fun x k tr hx h => ?_) hk⟩⟩
  · by_cases hxi : x = i
    · have halone' : t'.node e = .list kind [j] := by
        rw [hkept (.inl he) (by rintro rfl; cases houter.symm.trans halone), halone]
      rw [hxi, hchosen] at h
      rw [hxi, hchosen', ← hclause hxs']
      exact (traces_joined halone' (by rw [hkept (.inl hj) hapart, hinner])).mp h
    · rwa [hothers' x hx hxi]
  · by_cases hxi : x = i
    · rw [hxi, hchosen'] at h
      rw [hxi, hchosen]
      exact (traces_joined halone hinner).mpr h
    · rwa [hothers' x hx hxi] at h

end

/-! ## Nodes at which nothing is left to do -/

def holdsOnlyIf (t : Store) : List NodeId → Bool
  | [j] => isIf (t.node j)
  | _ => false

/-- There is nothing to do when a node is left. -/
def isCalm (t : Store) (i : NodeId) : Bool :=
  match t.node i with
  | .absent => false
  | .ifElse _ _ _ e =>
    match t.node e with
    | .list _ xs => !holdsOnlyIf t xs
    | _ => false
  | _ => true

/-- There is nothing to do when a node and those below it are left, and all of them are in `E`. No
chain of parts is longer than `d`. -/
def Settled (E : NodeId → Prop) (t : Store) : Nat → NodeId → Prop
  | 0, _ => False
  | d + 1, i => isCalm t i = true ∧ E i ∧ ∀ c ∈ (t.node i).children, Settled E t d c

theorem isCalm_congr (h : ∀ y, InTree t i y → t'.node y = t.node y) : isCalm t' i = isCalm t i := by
  unfold isCalm
  rw [h i .root]
  split
  · rfl
  · rename_i c b xs e hn
    have he : InTree t i e := .child .root (by simp [hn, Node.children])
    rw [h e he]
    split
    · rename_i ys hl
      unfold holdsOnlyIf
      split
      · rw [h _ (he.child (by simp [hl, Node.children]))]
      · rfl
    · rfl
  · rfl

theorem node_of_isCalm (h : isCalm t i = true) : t.node i ≠ .absent := by
  intro hn
  rw [isCalm, hn] at h
  cases h

namespace Settled

theorem calm (h : Settled E t d i) : isCalm t i = true := by
  cases d with
  | zero => exact h.elim
  | succ d => exact h.1

theorem succ (h : Settled E t d i) : Settled E t (d + 1) i := by
  induction d generalizing i with
  | zero => exact h.elim
  | succ d ih => exact ⟨h.1, h.2.1, fun c hc => ih (h.2.2 c hc)⟩

theorem below (h : Settled E t d i) (hj : InTree t i j) : ∃ k, Settled E t k j := by
  induction hj with
  | root => exact ⟨d, h⟩
  | child _ hc ih =>
    obtain ⟨k, hk⟩ := ih
    cases k with
    | zero => exact hk.elim
    | succ k => exact ⟨k, hk.2.2 _ hc⟩

theorem congr (h : Settled E t d i) (hsame : ∀ y, InTree t i y → t'.node y = t.node y) :
    Settled E t' d i := by
  induction d generalizing i with
  | zero => exact h.elim
  | succ d ih =>
    refine ⟨(isCalm_congr hsame).trans h.1, h.2.1, fun c hc => ?_⟩
    rw [hsame i .root] at hc
    exact ih (h.2.2 c hc) fun y hy => hsame y ((InTree.root.child hc).trans hy)

theorem absorb (h : Settled E t d j) (ha : Absorbs t t' i) : Settled E t' d j := by
  obtain ⟨houter, halone, hinner, -, -, hothers, -, -⟩ := ha
  refine h.congr fun y hy => ?_
  obtain ⟨k, hk⟩ := h.below hy
  refine hothers y ?_ (inside_of_node (node_of_isCalm hk.calm))
  rintro rfl
  simpa [isCalm, houter, halone, holdsOnlyIf, hinner, isIf] using hk.calm

end Settled

theorem Absorbs.settled (ha : Absorbs t t' i) (hi : E i) (hnew : E ⟨t.cells.size⟩)
    (h : ∀ c ∈ (t.node i).children, Settled E t d c) : Settled E t' (d + 1) i := by
  have h' : ∀ c ∈ (t.node i).children, Settled E t' d c := fun c hc => (h c hc).absorb ha
  obtain ⟨houter, halone, hinner, hapart, -, hothers, hbranch, hjoined⟩ := ha
  rename_i c b xs e kind j c' b' xs' e'
  have hkept : ∀ {x}, t.node x ≠ .absent → x ≠ i → t'.node x = t.node x := fun hx hne =>
    hothers _ hne (inside_of_node hx)
  have halone' : t'.node e = .list kind [j] := by
    rw [hkept (by simp [halone]) (by rintro rfl; cases houter.symm.trans halone), halone]
  have hinner' : t'.node j = .ifElse c' b' xs' e' := by rw [hkept (by simp [hinner]) hapart, hinner]
  simp only [houter, Node.children, List.cons_append, List.forall_mem_cons, List.forall_mem_append] at h'
  obtain ⟨hc, hb, hxs, he, -⟩ := h'
  rcases d with _ | d
  · cases he
  have hj := he.2.2 j (by rw [halone']; exact List.mem_singleton_self j)
  rcases d with _ | d
  · cases hj
  have hparts : ∀ y ∈ (t'.node j).children, Settled E t' (d + 1) y := fun y hy => (hj.2.2 y hy).succ
  simp only [hinner', Node.children, List.cons_append, List.forall_mem_cons, List.forall_mem_append] at hparts
  obtain ⟨hc', hb', hxs', he', -⟩ := hparts
  refine ⟨?_, hi, ?_⟩
  · rw [← hj.calm]
    simp only [isCalm, hjoined, hinner']
  · simp only [hjoined, Node.children, List.cons_append, List.append_assoc, List.forall_mem_cons,
      List.forall_mem_append]
    refine ⟨hc, hb, hxs, ⟨by simp [isCalm, hbranch], hnew, ?_⟩, fun y hy => (hxs' y hy).succ,
      he'.succ, by simp⟩
    simp only [hbranch, Node.children, List.forall_mem_cons]
    exact ⟨hc', hb', by simp⟩

/-! ## The walk -/

theorem setNode_node (t : Store) (i : NodeId) : t.setNode i (t.node i) = t := by
  refine congrArg Store.mk (Array.ext (size_setNode t i _) fun k hk hk' => ?_)
  simp only [Array.getElem_modify]
  split
  · rename_i hki
    subst hki
    simp [Store.node, Store.cell, Array.getD, hk']
  · rfl

theorem returns_at {α : Type} {w w' : Work Unit} {f : Node → Edit α} {a : α} (hn : w.store.node i = n)
    (h : Returns (f n) w a w') : Returns (node i >>= f) w a w' := by
  subst hn
  exact h

theorem returns_items {kind : ListKind} (hn : w.store.node i = .list kind xs) : Returns (items i) w xs w :=
  returns_at hn rfl

theorem leave_of_isCalm (h : isCalm t i = true) : Returns (visitor.leave i) ⟨t, ()⟩ () ⟨t, ()⟩ := by
  refine returns_at (n := t.node i) rfl ?_
  split
  · rename_i hn
    rw [isCalm, hn] at h
    dsimp only at h
    split at h
    · rename_i he
      refine (returns_items (w := ⟨t, ()⟩) he).ofBind ?_
      split
      · rename_i j
        refine returns_at (n := t.node j) rfl ?_
        split
        · simp_all [holdsOnlyIf, isIf]
        · rfl
      · rfl
    · cases h
  · rfl

/-- Tidying does nothing when it comes to a node, at any time. -/
def Entered (s : Store) (P : NodeId → Prop) (i : NodeId) : Prop :=
  ∀ t, Flattened s P t → Returns (visitor.enter i) ⟨t, ()⟩ () ⟨t, ()⟩

/-- A second walk finds nothing to do. -/
theorem Settled.walk (ht : Flattened s P t) (h : Settled (Entered s P) t d i) {k : Nat} (hk : d ≤ k) :
    Returns (walk visitor k i) ⟨t, ()⟩ () ⟨t, ()⟩ := by
  induction d generalizing i k with
  | zero => exact h.elim
  | succ d ih =>
    obtain ⟨k, rfl⟩ : ∃ m, k = m + 1 := ⟨k - 1, by omega⟩
    obtain ⟨hcalm, hi, hparts⟩ := h
    refine returns_walk ⟨t, ()⟩ rfl (node_of_isCalm hcalm) (hi t ht) ?_ (leave_of_isCalm hcalm)
    revert hparts
    induction (t.node i).children with
    | nil => exact fun _ => rfl
    | cons x xs ihxs =>
      intro hparts
      obtain ⟨hx, hxs⟩ := List.forall_mem_cons.mp hparts
      exact (ih hx (by omega)).ofBind (ihxs hxs)

/-- What a walk to depth `d` does: the nodes that it has changed are settled, and the tree runs the
same. -/
structure Later (s : Store) (P : NodeId → Prop) (d : Nat) (t t' : Store) : Prop where
  flattened : Flattened s P t'
  size : t.cells.size ≤ t'.cells.size
  settled : ∀ {k j}, Settled (Entered s P) t k j → Settled (Entered s P) t' k j
  changed : ∀ j, j.index < t.cells.size → t'.node j ≠ t.node j → Settled (Entered s P) t' d j
  traces : ∀ k tr, (∀ x ∈ k, x.Within P) → (Traces t k tr ↔ Traces t' k tr)

theorem Later.refl (ht : Flattened s P t) : Later s P d t t :=
  ⟨ht, Nat.le_refl _, id, fun _ _ h => (h rfl).elim, fun _ _ _ => .rfl⟩

theorem Later.trans (h : Later s P d t t') (h' : Later s P d t' t'') : Later s P d t t'' := by
  refine ⟨h'.flattened, Nat.le_trans h.size h'.size, fun hj => h'.settled (h.settled hj), fun j hj hne => ?_,
    fun k tr hk => (h.traces k tr hk).trans (h'.traces k tr hk)⟩
  by_cases hsame : t'.node j = t.node j
  · exact h'.changed j (Nat.lt_of_lt_of_le hj h.size) (hsame ▸ hne)
  · exact h'.settled (h.changed j hj hsame)

theorem Later.succ (h : Later s P d t t') : Later s P (d + 1) t t' :=
  { h with changed := fun j hj hne => (h.changed j hj hne).succ }

theorem entered_of_if (hi : P i) (hif : isIf (s.node i) = true) : Entered s P i := by
  intro t ht
  obtain ⟨_, _, _, _, hn, -⟩ := ht.choice i hi hif
  exact returns_at hn rfl

theorem entered_of_added (hi : s.cells.size ≤ i.index) : Entered s P i := by
  intro t ht
  by_cases hlt : i.index < t.cells.size
  · obtain ⟨_, _, hn, -⟩ := ht.added i hi hlt
    exact returns_at hn rfl
  · exact returns_at (n := .absent) (by rw [Store.node, cell_outside (Nat.not_lt.mp hlt)]) rfl

section
variable (hP : ∀ i, P i → isPlain (s.node i) = true ∧ ∀ c ∈ (s.node i).children, P c) (ht : Flattened s P t)
include hP ht

theorem Flattened.parts (hi : Present s P t i) :
    isPlain (t.node i) = true ∧ ∀ x ∈ (t.node i).children, Present s P t x := by
  cases hi with
  | inl hi =>
    cases hif : isIf (s.node i) with
    | false =>
      rw [ht.same i hi hif]
      exact ⟨(hP i hi).1, fun x hx => .inl ((hP i hi).2 x hx)⟩
    | true =>
      obtain ⟨c, b, xs, e, hn, hc, hb, he, hxs⟩ := ht.choice i hi hif
      simp only [hn, Node.children, List.cons_append, List.forall_mem_cons, List.forall_mem_append]
      exact ⟨rfl, .inl hc, .inl hb, hxs, .inl he, by simp⟩
  | inr hi =>
    obtain ⟨c, b, hn, hc, hb⟩ := ht.added i hi.1 hi.2
    simp only [hn, Node.children, List.forall_mem_cons]
    exact ⟨rfl, .inl hc, .inl hb, by simp⟩

/-- Without constructors the statements of a list stay, and are looked at the same way at any time. -/
theorem Flattened.foldAssignments (ht' : Flattened s P t') (hxs : ∀ x ∈ xs, P x)
    (h : Returns (foldAssignments xs.length xs) ⟨t, ()⟩ ys w) :
    Returns (foldAssignments xs.length xs) ⟨t', ()⟩ xs ⟨t', ()⟩ := by
  induction xs generalizing ys w with
  | nil => rfl
  | cons x xs ih =>
    obtain ⟨hx, hxs⟩ := List.forall_mem_cons.mp hxs
    have hrest : Returns (do
        let rest ← pure xs
        return x :: (← Tidy.foldAssignments xs.length rest)) ⟨t, ()⟩ ys w →
        Returns (do return x :: (← Tidy.foldAssignments xs.length xs)) ⟨t', ()⟩ (x :: xs) ⟨t', ()⟩ := by
      intro h
      obtain ⟨_, _, h1, h⟩ := h.bind
      obtain ⟨rfl, rfl⟩ := h1.pure
      obtain ⟨_, _, h2, -⟩ := h.bind
      exact (ih hxs h2).ofBind rfl
    have h := h.atNode
    cases hxif : isIf (s.node x) with
    | true =>
      obtain ⟨_, _, _, _, hn, -⟩ := ht.choice x hx hxif
      obtain ⟨_, _, _, _, hn', -⟩ := ht'.choice x hx hxif
      rw [show (Work.mk t ()).store.node x = _ from hn] at h
      exact returns_at hn' (hrest h)
    | false =>
      rw [show (Work.mk t ()).store.node x = _ from ht.same x hx hxif] at h
      refine returns_at (ht'.same x hx hxif) ?_
      split at h
      · rename_i es ds hn
        have hes := (hP x hx).2 es (by simp [hn, Node.children])
        obtain ⟨v, _, h1, h⟩ := h.bind
        obtain ⟨vs, _, h2, h1⟩ := h1.bind
        obtain ⟨-, rfl, ⟨kind, hl⟩ | ⟨_, hl, -⟩⟩ := items_inv h2 <;> replace hl : t.node es = _ := hl
        · have hesif : isIf (s.node es) = false := by rw [← ht.isIf_eq hes, hl]; rfl
          rw [ht.same es hes hesif] at hl
          split at h1
          · rename_i v' vs
            obtain ⟨rfl, rfl⟩ := h1.pure
            have hv' := (hP es hes).2 v' (by simp [hl, Node.children])
            have hfirst : Returns (firstItem es) ⟨t', ()⟩ v' ⟨t', ()⟩ :=
              (returns_items (w := ⟨t', ()⟩) ((ht'.same es hes hesif).trans hl)).ofBind rfl
            have hplain : ∀ {u}, Flattened s P u → isPlain (u.node v') = true := fun hu =>
              (hu.parts hP (.inl hv')).1
            refine hfirst.ofBind (returns_at (n := t'.node v') rfl ?_)
            have h := h.atNode
            split at h
            · rename_i hv
              have hplain := hplain ht
              rw [show t.node v' = _ from hv] at hplain
              cases hplain
            · split
              · rename_i hv
                have hplain := hplain ht'
                rw [hv] at hplain
                cases hplain
              · exact hrest h
          · exact h1.throw.elim
        · have hplain := (ht.parts hP (.inl hes)).1
          rw [hl] at hplain
          cases hplain
      · exact hrest h

theorem Flattened.enter (hi : Present s P t i) (h : Returns (visitor.enter i) ⟨t, ()⟩ () w) :
    Entered s P i := by
  cases hi with
  | inr hi => exact entered_of_added hi.1
  | inl hi =>
    cases hif : isIf (s.node i) with
    | true => exact entered_of_if hi hif
    | false =>
      intro t' ht'
      have h := h.atNode
      rw [show (Work.mk t ()).store.node i = _ from ht.same i hi hif] at h
      refine returns_at (ht'.same i hi hif) ?_
      split at h
      · rename_i xs hn
        have hxs : ∀ x ∈ xs, P x := fun x hx => (hP i hi).2 x (by rwa [hn])
        have hn' := (ht'.same i hi hif).trans hn
        obtain ⟨_, _, h1, -⟩ := h.bind
        refine (ht.foldAssignments hP ht' hxs h1).ofBind (returns_at hn' ?_)
        change EStateM.Result.ok () (Work.mk (t'.setNode i (.list .statements xs)) ()) = _
        rw [← hn', setNode_node]
      · rfl

theorem Flattened.leave (hi : Present s P t i) (henter : Entered s P i)
    (hparts : ∀ c ∈ (t.node i).children, Settled (Entered s P) t d c)
    (h : Returns (visitor.leave i) ⟨t, ()⟩ () w) :
    ∃ t', w = ⟨t', ()⟩ ∧ Later s P (d + 1) t t' ∧ Settled (Entered s P) t' (d + 1) i := by
  by_cases hdone : isCalm t i = true
  · obtain ⟨-, rfl⟩ := (leave_of_isCalm hdone).unique h
    exact ⟨t, rfl, .refl ht, hdone, henter, hparts⟩
  have hplain := (ht.parts hP hi).1
  obtain ⟨c, b, xs, e, hn⟩ : ∃ c b xs e, t.node i = .ifElse c b xs e := by
    unfold isCalm at hdone
    split at hdone <;> simp_all [isPlain]
  have hi : P i := hi.resolve_right fun hi => by
    obtain ⟨_, _, hn', -⟩ := ht.added i hi.1 hi.2
    cases hn.symm.trans hn'
  have he := (ht.branches hi hn).2.2.1
  have h := h.atNode
  rw [show (Work.mk t ()).store.node i = _ from hn] at h
  obtain ⟨ys, _, h1, h⟩ := h.bind
  obtain ⟨-, rfl, ⟨kind, hl⟩ | ⟨_, hl, -⟩⟩ := items_inv h1 <;> replace hl : t.node e = _ := hl
  · have hcalm : isCalm t i = !holdsOnlyIf t ys := by simp only [isCalm, hn, hl]
    split at h
    · rename_i j
      obtain ⟨c', b', xs', e', hj⟩ :=
        isIf_iff.mp (by simpa [hcalm, holdsOnlyIf] using hdone : isIf (t.node j) = true)
      have h := h.atNode
      rw [show (Work.mk t ()).store.node j = _ from hj] at h
      obtain ⟨_, _, h2, h⟩ := h.bind
      obtain ⟨rfl, rfl⟩ := returns_add h2
      obtain rfl := returns_setNode h
      have hlt : i.index < t.cells.size := ht.inside hP (.inl hi)
      have hother : ∀ x, x ≠ i → x.index < t.cells.size →
          ((Store.mk (t.cells.push { node := .elseIf c' b' })).setNode i
          (.ifElse c b (xs ++ ⟨t.cells.size⟩ :: xs') e')).node x = t.node x := fun x hx hx' => by
        rw [node_setNode_of_ne hx, Store.node, cell_push_of_lt hx', Store.node]
      have ha : Absorbs t ((Store.mk (t.cells.push { node := .elseIf c' b' })).setNode i
          (.ifElse c b (xs ++ ⟨t.cells.size⟩ :: xs') e')) i := by
        refine .intro hn hl hj ?_ (by simp [size_setNode]) hother ?_
          (node_setNode_self (by simpa using Nat.lt_succ_of_lt hlt))
        · rintro rfl
          obtain ⟨_, hk⟩ := (hparts e (by simp [hn, Node.children])).below (j := j)
            (.child .root (by simp [hl, Node.children]))
          exact hdone hk.calm
        · rw [node_setNode_of_ne fun h => by rw [← h] at hlt; exact Nat.lt_irrefl _ hlt]
          simp [Store.node, cell_push_self]
      obtain ⟨ht', htraces⟩ := ht.absorb hP hi ha
      have hsettled := ha.settled henter (entered_of_added ht.size) hparts
      refine ⟨_, rfl,
        ⟨ht', by simp [size_setNode], fun hj => hj.absorb ha, fun x hx hne => ?_, htraces⟩, hsettled⟩
      by_cases hxi : x = i
      · exact hxi ▸ hsettled
      · exact (hne (hother x hxi hx)).elim
    · rename_i hys
      refine (hdone ?_).elim
      unfold holdsOnlyIf at hcalm
      split at hcalm
      · exact (hys _ rfl).elim
      · exact hcalm
  · have hplain := (ht.parts hP (.inl he)).1
    rw [hl] at hplain
    cases hplain

theorem later_of_walk (hi : Present s P t i) (h : Returns (walk visitor d i) ⟨t, ()⟩ () w) :
    ∃ t', w = ⟨t', ()⟩ ∧ Later s P d t t' ∧ Settled (Entered s P) t' d i := by
  induction d generalizing t i w with
  | zero => exact h.throw.elim
  | succ d ih =>
    obtain ⟨_, _, h1, h⟩ := walk_inv h
    obtain ⟨rfl, rfl⟩ := h1.pure
    obtain ⟨hno, -⟩ | ⟨w2, w3, -, henter, hparts, hleave⟩ := h
    · cases hno
    have hentered := ht.enter hP hi henter
    obtain ⟨-, rfl⟩ := (hentered t ht).unique henter
    have hall : ∀ {xs : List NodeId} {t w}, Flattened s P t → (∀ x ∈ xs, Present s P t x) →
        Returns (xs.forM (walk visitor d)) ⟨t, ()⟩ () w →
        ∃ t', w = ⟨t', ()⟩ ∧ Later s P d t t' ∧ ∀ x ∈ xs, Settled (Entered s P) t' d x := by
      intro xs
      induction xs with
      | nil => exact fun ht _ h => ⟨_, h.pure.2.symm, .refl ht, nofun⟩
      | cons x xs ihxs =>
        intro t w ht hxs h
        obtain ⟨hx, hxs⟩ := List.forall_mem_cons.mp hxs
        obtain ⟨_, _, h1, h⟩ := h.bind
        obtain ⟨t1, rfl, hl1, hx1⟩ := ih ht hx h1
        obtain ⟨t2, rfl, hl2, hx2⟩ := ihxs hl1.flattened
          (fun y hy => (hxs y hy).imp_right fun hy => ⟨hy.1, Nat.lt_of_lt_of_le hy.2 hl1.size⟩) h
        exact ⟨t2, rfl, hl1.trans hl2, List.forall_mem_cons.mpr ⟨hl2.settled hx1, hx2⟩⟩
    obtain ⟨t2, rfl, hl2, hsettled⟩ := hall ht (ht.parts hP hi).2 hparts
    -- A node that changed on the way is settled already, as there is no chain from it back to itself.
    by_cases hsame : t2.node i = t.node i
    · obtain ⟨t3, rfl, hl3, hi3⟩ := hl2.flattened.leave hP
        (hi.imp_right fun hi => ⟨hi.1, Nat.lt_of_lt_of_le hi.2 hl2.size⟩) hentered
        (fun c hc => hsettled c (hsame ▸ hc)) hleave
      exact ⟨t3, rfl, hl2.succ.trans hl3, hi3⟩
    · have hi2 := hl2.changed i (ht.inside hP hi) hsame
      obtain ⟨-, rfl⟩ := (leave_of_isCalm hi2.calm).unique hleave
      exact ⟨t2, rfl, hl2.succ, hi2.succ⟩

end

/-- In a tidied tree no `if` stands alone in an `else`. The tree evaluates the same conditions in the
same order and runs the same statements as before, and tidying it again changes nothing. -/
theorem tidy_flattens_choices (hs : ∀ i, InTree s root i → isPlain (s.node i) = true)
    (hrun : (tidy root).run' s = (.ok (), t)) :
    (∀ i c b xs e kind j, InTree t root i → t.node i = .ifElse c b xs e → t.node e = .list kind [j] →
      isIf (t.node j) = false) ∧
    (∀ i, InTree s root i → isIf (s.node i) = false → t.node i = s.node i) ∧
    (∀ l tr, InTree s root l → (Traces s [.block l] tr ↔ Traces t [.block l] tr)) ∧
    (tidy root).run' t = (.ok (), t) := by
  obtain ⟨_, _, h, hwalk⟩ := (returns_of_run hrun).bind
  obtain ⟨rfl, rfl⟩ := returns_get h
  have hstart : Flattened s (InTree s root) s := by
    refine ⟨Nat.le_refl _, fun _ _ _ => rfl, fun j hj hif => ?_,
      fun j hj hj' => absurd hj' (Nat.not_lt.mpr hj)⟩
    obtain ⟨c, b, xs, e, hn⟩ := isIf_iff.mp hif
    have hparts : ∀ x ∈ (s.node j).children, InTree s root x := fun x hx => hj.child hx
    simp only [hn, Node.children, List.cons_append, List.forall_mem_cons, List.forall_mem_append] at hparts
    exact ⟨c, b, xs, e, hn, hparts.1, hparts.2.1, hparts.2.2.2.1, fun x hx => .inl (hparts.2.2.1 x hx)⟩
  obtain ⟨t, hw, hlater, hsettled⟩ :=
    later_of_walk (fun i hi => ⟨hs i hi, fun _ => hi.child⟩) hstart (.inl .root) hwalk
  cases hw
  refine ⟨fun i c b xs e kind j hi hn he => ?_, hlater.flattened.same, fun l tr hl => ?_, ?_⟩
  · obtain ⟨_, hk⟩ := hsettled.below hi
    simpa only [isCalm, hn, he, holdsOnlyIf, Bool.not_eq_true'] using hk.calm
  · exact hlater.traces _ _ (List.forall_mem_singleton.mpr hl)
  · have hdepth : s.depth ≤ t.depth := Nat.add_le_add_right (Nat.mul_le_mul_left 8 hlater.size) 64
    have hget : Returns (get : Edit (Work Unit)) ⟨t, ()⟩ ⟨t, ()⟩ ⟨t, ()⟩ := rfl
    have hagain : Returns (tidy root) ⟨t, ()⟩ () ⟨t, ()⟩ :=
      hget.ofBind (hsettled.walk hlater.flattened hdepth)
    rw [Edit.run', show tidy root _ = _ from hagain]

/-- `while true do if true then break else if true then break end end end`. -/
def nestedElse : Store := numbered [
  .primitive .true, .breakLoop, .list .statements [⟨2⟩], .list .statements [], .ifElse ⟨1⟩ ⟨3⟩ [] ⟨4⟩,
  .list .statements [⟨5⟩], .ifElse ⟨1⟩ ⟨3⟩ [] ⟨6⟩, .list .statements [⟨7⟩], .whileLoop ⟨1⟩ ⟨8⟩,
  .list .statements [⟨9⟩]]

theorem tidy_flattens_nestedElse :
    (∀ i, InTree nestedElse ⟨10⟩ i → isPlain (nestedElse.node i) = true) ∧
    ∃ t, (tidy ⟨10⟩).run' nestedElse = (.ok (), t) ∧ t.node ⟨7⟩ = .ifElse ⟨1⟩ ⟨3⟩ [⟨11⟩] ⟨4⟩ ∧
      (∀ tr, Traces nestedElse [.block ⟨10⟩] tr ↔ Traces t [.block ⟨10⟩] tr) ∧
      (tidy ⟨10⟩).run' t = (.ok (), t) := by
  have hs : ∀ i, InTree nestedElse ⟨10⟩ i → isPlain (nestedElse.node i) = true := by
    intro i hi
    have hrange : i.index ∈ List.range' 1 10 := by
      cases hi with
      | root => decide
      | child _ hc =>
        exact forall_node (P := fun n => ∀ c ∈ n.children, c.index ∈ List.range' 1 10) nofun
          (by decide +kernel) _ _ hc
    exact (by decide +kernel : ∀ k ∈ List.range' 1 10, isPlain (nestedElse.node ⟨k⟩) = true) i.index hrange
  have hrun : (tidy ⟨10⟩).run' nestedElse = (.ok (), ((tidy ⟨10⟩).run' nestedElse).2) :=
    Prod.ext (by decide +kernel) rfl
  obtain ⟨-, -, htraces, hagain⟩ := tidy_flattens_choices hs hrun
  exact ⟨hs, _, hrun, by decide +kernel, fun tr => htraces _ tr .root, hagain⟩

end LuaLift.Proofs
