import LuaLift.Flow.Structure
import LuaLift.Proofs.BranchTrees
import LuaLift.Proofs.TidyingValid

/-! # The lists of statements of a tree

A walk gathers the lists of statements of a tree. `Gathers` gives them without the walk, for a tree
without endless chains. For blocks of a program they are the lists that the program owns. -/
namespace LuaLift.Proofs
open Tree Flow

/-! ## Gathering -/

/-- A list of statements that is not empty. -/
def isFilled : Node → Bool
  | .list .statements (_ :: _) => true
  | _ => false

/-- The lists of statements at nodes and below them, in the order of a walk. -/
inductive Gathers (s : Store) : List NodeId → List NodeId → Prop
  | nil : Gathers s [] []
  | cons {i is ls ms} : s.node i ≠ .absent → Gathers s (s.node i).children ls → Gathers s is ms →
      Gathers s (i :: is) ((if isFilled (s.node i) then i :: ls else ls) ++ ms)

variable {s : Store} {i t : NodeId} {is js ks xs ls ms : List NodeId}

theorem Gathers.grounded (h : Gathers s is ls) : ∀ i ∈ is, Grounded s i := by
  induction h with
  | nil => nofun
  | cons _ _ _ ih ihr =>
    intro x hx
    rcases List.mem_cons.mp hx with rfl | hx
    · exact ⟨x, ih⟩
    · exact ihr x hx

theorem Gathers.append (h : Gathers s is ls) (h' : Gathers s js ms) : Gathers s (is ++ js) (ls ++ ms) := by
  induction h with
  | nil => exact h'
  | cons hi hc _ _ ihr =>
    rw [List.append_assoc]
    exact .cons hi hc ihr

theorem Gathers.split (h : Gathers s (is ++ js) ls) :
    ∃ ms ms', ls = ms ++ ms' ∧ Gathers s is ms ∧ Gathers s js ms' := by
  induction is generalizing ls with
  | nil => exact ⟨[], ls, rfl, .nil, h⟩
  | cons i is ih =>
    cases h with
    | cons hi hc hr =>
      obtain ⟨ms, ms', rfl, his, hjs⟩ := ih hr
      exact ⟨_, ms', (List.append_assoc ..).symm, .cons hi hc his, hjs⟩

theorem Gathers.single (hi : s.node i ≠ .absent) (hf : isFilled (s.node i) = false)
    (h : Gathers s (s.node i).children ls) :
    Gathers s [i] ls := by
  have := Gathers.cons hi h .nil
  rwa [hf, if_neg Bool.false_ne_true, List.append_nil] at this

theorem gathers_of_forall (h : ∀ i ∈ is, Gathers s [i] []) : Gathers s is [] := by
  induction is with
  | nil => exact .nil
  | cons i is ih =>
    exact (h i List.mem_cons_self).append (ih fun j hj => h j (List.mem_cons_of_mem _ hj))

theorem isFilled_of_bare {n : Node} (h : holdsStatements n = false) : isFilled n = false := by
  unfold isFilled
  split
  · exact h
  · rfl

theorem Bare.gathers (h : Bare s i) : Gathers s [i] [] := by
  induction h with
  | intro hi hh _ ih => exact .single hi (isFilled_of_bare hh) (gathers_of_forall ih)

/-! ## The walk -/

theorem returns_walk {σ : Type} {v : Visitor σ} {w : Work σ} (w1 : Work σ) {w2 w3 : Work σ}
    {d : Nat} {i : NodeId}
    (ha : Returns (v.admits i) w true w) (hi : w.store.node i ≠ .absent) (he : Returns (v.enter i) w () w1)
    (hc : Returns ((w1.store.node i).children.forM (walk v d)) w1 () w2) (hl : Returns (v.leave i) w2 () w3) :
    Returns (walk v (d + 1) i) w () w3 := by
  refine ha.ofBind ?_
  refine (Returns.ofRequire (by simpa using hi)).ofBind (he.ofBind ?_)
  exact Returns.ofBind (rfl : Returns (Pass.node i) w1 _ _) (hc.ofBind hl)

/-- What the walk for lists of statements does at each node. -/
def listVisitor : Visitor (Array NodeId) where
  enter i := do
    match ← Pass.node i with
    | .list .statements (_ :: _) => Pass.modifyOwn (·.push i)
    | _ => return ()

theorem returns_enter (acc : Array NodeId) :
    Returns (listVisitor.enter i) ⟨s, acc⟩ () ⟨s, if isFilled (s.node i) then acc.push i else acc⟩ := by
  refine Returns.ofBind (rfl : Returns (Pass.node i) ⟨s, acc⟩ _ _) ?_
  unfold isFilled
  dsimp only
  split <;> rfl

/-- A walk goes down chains of different nodes only, so it need not go deeper than the store is large. -/
theorem Gathers.walk (h : Gathers s is ls) (d : Nat) (acc : Array NodeId) {above : List NodeId}
    (hnodup : above.Nodup)
    (habove : ∀ x ∈ above, s.node x ≠ .absent ∧ Grounded s x ∧ ∀ i ∈ is, Beneath s x i)
    (hd : s.cells.size < d + above.length) :
    Returns (is.forM (walk listVisitor d)) ⟨s, acc⟩ () ⟨s, acc ++ ls.toArray⟩ := by
  induction h generalizing d above acc with
  | nil => simp [Returns]; rfl
  | @cons i is ls ms hi hc hr ihc ihr =>
    obtain ⟨d, rfl⟩ : ∃ m, d = m + 1 := by
      have := length_le_size hnodup fun x hx => (habove x hx).1
      exact ⟨d - 1, by omega⟩
    have hgrounded : Grounded s i := ⟨i, hc.grounded⟩
    have hfresh : i ∉ above := fun hmem => by
      obtain ⟨-, hg, hbelow⟩ := habove i hmem
      obtain ⟨x, hx, hix⟩ := hbelow i List.mem_cons_self
      exact hg.not_below hx hix
    have habove' : ∀ x ∈ i :: above, s.node x ≠ .absent ∧ Grounded s x ∧ ∀ c ∈ (s.node i).children,
        Beneath s x c := by
      intro x hx
      rcases List.mem_cons.mp hx with rfl | hx
      · exact ⟨hi, hgrounded, fun c hc => ⟨c, hc, .root⟩⟩
      · obtain ⟨hx, hg, hbelow⟩ := habove x hx
        obtain ⟨y, hy, hiy⟩ := hbelow i List.mem_cons_self
        exact ⟨hx, hg, fun c hc => ⟨y, hy, hiy.child hc⟩⟩
    refine Returns.ofBind
      (returns_walk _ rfl hi (returns_enter acc) (ihc d _ (List.nodup_cons.mpr ⟨hfresh, hnodup⟩) habove'
      (by simp only [List.length_cons]; omega)) rfl) ?_
    have hrest := ihr (d + 1) ((if isFilled (s.node i) then acc.push i else acc) ++
      ls.toArray) hnodup (fun x hx => ⟨(habove x hx).1, (habove x hx).2.1, fun j hj =>
      (habove x hx).2.2 j (List.mem_cons_of_mem _ hj)⟩) hd
    have hown : (if isFilled (s.node i) then acc.push i else acc) ++ ls.toArray ++ ms.toArray =
        acc ++ ((if isFilled (s.node i) then i :: ls else ls) ++ ms).toArray := by
      split <;> simp
    rw [hown] at hrest
    exact hrest

theorem Gathers.statementLists {root : NodeId} {w : Work Unit} (h : Gathers w.store [root] ls) :
    Returns (statementLists root) w ls w := by
  have hwalk := h.walk w.store.depth #[] .nil nofun (by simp [Store.depth]; omega)
  obtain ⟨_, v, hroot, hdone⟩ := hwalk.bind
  obtain ⟨-, rfl⟩ := hdone.pure
  have htree : Returns (walkTree listVisitor root) ⟨w.store, #[]⟩ () ⟨w.store, #[] ++ ls.toArray⟩ :=
    Returns.ofBind (rfl : Returns get _ _ _) hroot
  have hlists : Returns (Flow.statementLists root) w (#[] ++ ls.toArray).toList w := htree.within.ofBind rfl
  rwa [Array.empty_append] at hlists

/-! ## Blocks -/

theorem isFilled_of_isExit {n : Node} (h : n.isExit = true) : isFilled n = false := by
  cases n <;> first | rfl | cases h

theorem BlockOf.gathers {held : List NodeId} {exit : Node} (h : BlockOf s i held exit)
    (hexit : exit.isExit = true)
    (hheld : Gathers s held ls) (hparts : Gathers s exit.children []) : Gathers s [i] ls := by
  obtain ⟨b, hb, rfl, rfl⟩ := h
  have hne : s.node b.exit ≠ .absent := fun he => by rw [he] at hexit; cases hexit
  refine .single (by rw [hb]; nofun) (by rw [hb]; rfl) ?_
  have hchildren := hheld.append (.single hne (isFilled_of_isExit hexit) hparts)
  rw [List.append_nil] at hchildren
  rw [hb]
  exact hchildren

theorem Chained.gathers (h : Chained s ks xs) (hx : Gathers s xs ls) : Gathers s ks ls := by
  induction h generalizing ls with
  | last hb => exact hb.gathers rfl hx .nil
  | cons hb _ ih =>
    obtain ⟨ms, ms', rfl, hheld, hrest⟩ := hx.split
    exact (hb.gathers rfl hheld .nil).append (ih hrest)

theorem Chained.ne_nil (h : Chained s ks xs) : ks ≠ [] := by
  cases h <;> nofun

theorem Listed.gathers {rows : Rows} (h : Listed s t xs rows) (hx : Gathers s xs ls) :
    Gathers s [t] (rows.lists ++ ls) := by
  cases h with
  | empty ht =>
    cases hx
    refine .single (by rw [ht]; nofun) (by rw [ht]; rfl) ?_
    rw [ht]
    exact .nil
  | @chain ks _ ht hc =>
    have hfilled : isFilled (s.node t) = true := by
      rw [ht]
      cases ks with
      | nil => exact absurd rfl hc.ne_nil
      | cons => rfl
    have hlist := Gathers.cons (by rw [ht]; nofun) (by rw [ht]; exact hc.gathers hx) .nil
    rwa [hfilled, if_pos rfl, List.append_nil] at hlist

theorem Conjunction.bare {cs : List NodeId} {d : NodeId} (h : Conjunction s cs d)
    (hcs : ∀ c ∈ cs, Bare s c) : Bare s d := by
  induction h with
  | one => exact hcs _ List.mem_cons_self
  | @more cs c l i hi _ ih =>
    refine .intro (by rw [hi]; nofun) (by rw [hi]; rfl) fun x hx => ?_
    rw [hi] at hx
    rcases List.mem_cons.mp hx with rfl | hx
    · exact ih fun c hc => hcs c (List.mem_append_left _ hc)
    · rw [List.mem_singleton.mp hx]
      exact hcs c (List.mem_append_right _ List.mem_cons_self)

section
open Program
variable {q yes no rest : Program} {c : NodeId} {held : List NodeId} {rows : Rows}
  {block : Nat → NodeId} {closed : Bool}
  {p next : Nat}

theorem Program.WellFormed.bareConditions (h : (branch c yes no rest).WellFormed s) :
    ∀ x ∈ c :: (Program.opening yes no).1, Bare s x := by
  obtain ⟨-, hc, -, hyes, -⟩ := h
  intro x hx
  rcases List.mem_cons.mp hx with rfl | hx
  · exact hc
  · unfold Program.opening at hx
    split at hx
    · exact (hyes.chain.2.1 x hx).1
    · cases hx

theorem Represents.gathers (h : Represents s q xs rows) (hq : q.WellFormed s) : Gathers s xs rows.lists := by
  induction h with
  | done => exact .nil
  | step _ ih => exact hq.1.gathers.append (ih hq.2.2)
  | branch hi hc ht _ he _ _ iht ihe ih =>
    have hcond := (hc.bare hq.bareConditions).gathers
    obtain ⟨-, -, hyes, hy, hn, hr⟩ := hq
    have hbranch := hcond.append ((ht.gathers (iht (hy.opening hyes _).1)).append (he.gathers (ihe hn)))
    have hif : Gathers s [_] _ := .single (by rw [hi]; nofun) (by rw [hi]; rfl) (by rw [hi]; exact hbranch)
    simpa using hif.append (ih hr)

theorem Program.Onward.children {exit : Node} (h : Onward block closed p next exit) : exit.children = [] := by
  cases closed with
  | true =>
    obtain rfl : exit = _ := h
    rfl
  | false =>
    obtain ⟨closes, rfl⟩ := h
    rfl

theorem Program.ForkedAt.gathers_of (h : ForkedAt s block c yes no closed held p next) (hc : Bare s c)
    (hheld : ∀ x ∈ held, Bare s x) (hyes : Gathers s (segment block (p + 1) (p + 1 + yes.width)) [])
    (hno : no.isDone = false →
      Gathers s (segment block (p + 1 + yes.width) (p + 1 + yes.width + no.width)) []) :
    Gathers s (segment block p (p + 1 + yes.width + no.extent)) [] := by
  obtain ⟨slot, hb⟩ := h.start
  have hstart := hb.gathers rfl (gathers_of_forall fun i hi => (hheld i hi).gathers) hc.gathers
  rw [segment_cons (by omega), ← segment_append (m := p + 1 + yes.width) (by omega) (by omega)]
  refine hstart.append (hyes.append ?_)
  cases hd : no.isDone with
  | true =>
    simp only [isDone_iff.mp hd, extent_done, Nat.add_zero, segment_self]
    exact .nil
  | false =>
    rw [extent_eq hd]
    exact hno hd

/-- There are no lists of statements in the blocks of a program. -/
theorem Program.CompiledAt.gathers (h : q.CompiledAt s block closed held p next) (hq : q.WellFormed s)
    (hheld : ∀ x ∈ held, Bare s x) : Gathers s (segment block p (p + q.width)) [] := by
  induction q generalizing closed held p next with
  | done =>
    obtain ⟨exit, hb, ho⟩ := h
    rw [width, segment_cons (Nat.lt_succ_self _), segment_self]
    refine hb.gathers ho.leadsTo.isExit (gathers_of_forall fun i hi => (hheld i hi).gathers) ?_
    rw [Program.Onward.children ho]
    exact .nil
  | step i rest ih =>
    refine ih h hq.2.2 fun x hx => ?_
    rcases List.mem_append.mp hx with hx | hx
    · exact hheld x hx
    · rw [List.mem_singleton.mp hx]
      exact hq.1
  | branch c yes no rest ihy ihn ihr =>
    obtain ⟨-, hc, -, hy, hn, hr⟩ := hq
    cases hrest : rest.isDone with
    | true =>
      obtain rfl := isDone_iff.mp hrest
      rw [compiledAt_branch_last] at h
      have hfork := h.gathers_of hc hheld (ihy h.first hy (by simp)) fun hd => ihn (h.second hd) hn (by simp)
      rwa [width_branch, extent_done, Nat.add_zero, ← Nat.add_assoc, ← Nat.add_assoc]
    | false =>
      rw [compiledAt_branch hrest] at h
      have hfork := h.1.gathers_of hc hheld (ihy h.1.first hy (by simp)) fun hd =>
        ihn (h.1.second hd) hn (by simp)
      have hboth := hfork.append (ihr h.2 hr (by simp))
      rw [segment_append (by omega) (by omega)] at hboth
      rwa [width_branch, extent_eq hrest, ← Nat.add_assoc, ← Nat.add_assoc, ← Nat.add_assoc]

end

end LuaLift.Proofs
