import LuaLift.Proofs.OperandEnds

/-! # Programs with branches

Programs of basic statements and nested `if` statements, the blocks that they are compiled to, and
the statements that they run. The blocks of a program stand one after the other: `CompiledAt` says
what they hold and where they lead, with the place where the program goes on when it is done. -/
namespace LuaLift.Proofs
open Tree

/-- Basic statements and `if` statements in sequence. An `else` that is missing is `done`. -/
inductive Program where
  | done
  | step (statement : NodeId) (rest : Program)
  | branch (condition : NodeId) (yes no rest : Program)

/-- Nodes whose parts are statements or blocks. -/
def holdsStatements : Node → Bool
  | .block _ => true
  | .list .statements (_ :: _) => true
  | _ => false

/-- There are no statements below a node. -/
inductive Bare (s : Store) : NodeId → Prop
  | intro {i} : s.node i ≠ .absent → holdsStatements (s.node i) = false →
      (∀ c ∈ (s.node i).children, Bare s c) → Bare s i

def isIf : Node → Bool
  | .ifElse .. => true
  | _ => false

/-- How the last block of a program, at position `p`, leads to `next`: it flows into the next block
and jumps to a later one. If the program is `closed`, it was cut off there. -/
def Onward (block : Nat → NodeId) (closed : Bool) (p next : Nat) (exit : Node) : Prop :=
  if closed then exit = .stop (block next)
  else ∃ closes, exit = .jump (if next = p + 1 then .flow else .jump) (block next) closes

/-- Where an exit leads if its test fails, or always. -/
inductive LeadsTo : Node → NodeId → Prop
  | test {c t i slot} : LeadsTo (.test c t i slot) i
  | jump {kind i closes} : LeadsTo (.jump kind i closes) i
  | stop {i} : LeadsTo (.stop i) i

theorem LeadsTo.isExit {exit : Node} {i : NodeId} (h : LeadsTo exit i) : exit.isExit = true := by
  cases h <;> rfl

theorem Onward.leadsTo {block : Nat → NodeId} {closed : Bool} {p next : Nat} {exit : Node}
    (h : Onward block closed p next exit) : LeadsTo exit (block next) := by
  cases closed with
  | true =>
    obtain rfl : exit = _ := h
    exact .stop
  | false =>
    obtain ⟨closes, rfl⟩ := h
    exact .jump

namespace Program

def isDone : Program → Bool
  | done => true
  | _ => false

@[simp] theorem isDone_iff {q : Program} : q.isDone = true ↔ q = done := by
  cases q <;> simp [isDone]

/-- The statements that were run after those of `past`. The outcome of a condition may depend on
what was run before. -/
def run (outcome : List NodeId → NodeId → Bool) : Program → List NodeId → List NodeId
  | done, past => past
  | step i rest, past => rest.run outcome (past ++ [i])
  | branch c yes no rest, past =>
    rest.run outcome (if outcome past c then yes.run outcome past else no.run outcome past)

/-- The number of blocks of a program whose first block is open. -/
def width : Program → Nat
  | done => 1
  | step _ rest => rest.width
  | branch _ yes no rest =>
    1 + yes.width + (if no.isDone then 0 else no.width) + (if rest.isDone then 0 else rest.width)

/-- The number of blocks of a part that may be missing. -/
def extent (q : Program) : Nat := if q.isDone then 0 else q.width

/-- Statements are no `if` and have no statements below them, conditions are comparisons, and the
first branch of an `if` is not empty. -/
def WellFormed (s : Store) : Program → Prop
  | done => True
  | step i rest => Bare s i ∧ isIf (s.node i) = false ∧ rest.WellFormed s
  | branch c yes no rest =>
    (∃ op l r, s.node c = .binary op l r ∧ isComparison op = true) ∧ Bare s c ∧ yes.isDone = false ∧
      yes.WellFormed s ∧ no.WellFormed s ∧ rest.WellFormed s

/-- The last statement of a program is no `if`, and satisfies `P`. -/
def EndsWith (P : NodeId → Prop) : Program → Prop
  | done => False
  | step i rest => if rest.isDone then P i else rest.EndsWith P
  | branch _ _ _ rest => rest.EndsWith P

/-- The blocks from position `p` on are those of a program that goes on at `next`. The first block
holds statements already. An `if` that is last goes on where the program does. -/
def CompiledAt (s : Store) (block : Nat → NodeId) : Program → Bool → List NodeId → Nat → Nat → Prop
  | done, closed, held, p, next => ∃ exit, BlockOf s (block p) held exit ∧ Onward block closed p next exit
  | step i rest, closed, held, p, next => rest.CompiledAt s block closed (held ++ [i]) p next
  | branch c yes no rest, closed, held, p, next =>
    let after := if rest.isDone then next else p + 1 + yes.width + no.extent
    let ends := closed && rest.isDone
    (∃ slot, BlockOf s (block p) held
      (.test c (block (p + 1)) (block (if no.isDone then after else p + 1 + yes.width)) slot)) ∧
    yes.CompiledAt s block (ends && no.isDone) [] (p + 1) after ∧
    (no.isDone = false → no.CompiledAt s block ends [] (p + 1 + yes.width) after) ∧
    (rest.isDone = false → rest.CompiledAt s block closed [] after next)

/-- The blocks of an `if` that goes on at `next`. -/
structure ForkedAt (s : Store) (block : Nat → NodeId) (c : NodeId) (yes no : Program) (closed : Bool)
    (held : List NodeId) (p next : Nat) : Prop where
  start : ∃ slot, BlockOf s (block p) held
    (.test c (block (p + 1)) (block (if no.isDone then next else p + 1 + yes.width)) slot)
  first : yes.CompiledAt s block (closed && no.isDone) [] (p + 1) next
  second : no.isDone = false → no.CompiledAt s block closed [] (p + 1 + yes.width) next

section
variable {s s' : Store} {block : Nat → NodeId} {q yes no rest : Program} {c : NodeId} {closed closed' : Bool}
  {held : List NodeId} {p next k : Nat}

theorem width_pos (q : Program) : 0 < q.width := by
  induction q with
  | done => exact Nat.one_pos
  | step _ _ ih => exact ih
  | branch =>
    rw [width]
    omega

theorem width_branch : (branch c yes no rest).width = 1 + yes.width + no.extent + rest.extent := rfl

theorem extent_eq (h : q.isDone = false) : q.extent = q.width := by simp [extent, h]

@[simp] theorem extent_done : done.extent = 0 := rfl

theorem compiledAt_branch_last : (branch c yes no done).CompiledAt s block closed held p next ↔
    ForkedAt s block c yes no closed held p next := by
  simp only [CompiledAt, isDone, if_true, Bool.and_true, reduceCtorEq, false_implies, and_true]
  exact ⟨fun ⟨h1, h2, h3⟩ => ⟨h1, h2, h3⟩, fun ⟨h1, h2, h3⟩ => ⟨h1, h2, h3⟩⟩

theorem compiledAt_branch (hrest : rest.isDone = false) :
    (branch c yes no rest).CompiledAt s block closed held p next ↔
      ForkedAt s block c yes no false held p (p + 1 + yes.width + no.extent) ∧
        rest.CompiledAt s block closed [] (p + 1 + yes.width + no.extent) next := by
  simp only [CompiledAt, hrest, Bool.false_eq_true, if_false, Bool.and_false, Bool.false_and, true_implies]
  exact ⟨fun ⟨h1, h2, h3, h4⟩ => ⟨⟨h1, h2, h3⟩, h4⟩, fun ⟨⟨h1, h2, h3⟩, h4⟩ => ⟨h1, h2, h3, h4⟩⟩

/-! ## Changes of the store -/

/-- The blocks from position `a` up to `b` are as they were. -/
def Kept (s s' : Store) (block : Nat → NodeId) (a b : Nat) : Prop :=
  ∀ k held exit, a ≤ k → k < b → exit.isExit = true → BlockOf s (block k) held exit →
    BlockOf s' (block k) held exit

/-- If the block at position `k` was the last one of a program, it still is. -/
def StillLast (s s' : Store) (block : Nat → NodeId) (closed closed' : Bool) (k next : Nat) : Prop :=
  ∀ held exit, BlockOf s (block k) held exit → Onward block closed k next exit →
    ∃ exit', BlockOf s' (block k) held exit' ∧ Onward block closed' k next exit'

theorem Kept.mono {a b a' b' : Nat} (h : Kept s s' block a b) (ha : a ≤ a') (hb : b' ≤ b) :
    Kept s s' block a' b' := fun k held exit hk hk' => h k held exit (by omega) (by omega)

theorem Kept.stillLast {a b : Nat} (h : Kept s s' block a b) (ha : a ≤ k) (hb : k < b) :
    StillLast s s' block closed closed k next := fun held exit hblock ho =>
  ⟨exit, h k held exit ha hb ho.leadsTo.isExit hblock, ho⟩

/-- If all blocks but the last stay as they are, and the last one still leads to where the program
goes on, the blocks are still those of the program. -/
def Carries (s s' : Store) (block : Nat → NodeId) (q : Program) : Prop :=
  ∀ {closed closed' held p next}, q.CompiledAt s block closed held p next →
    Kept s s' block p (p + q.width - 1) → StillLast s s' block closed closed' (p + q.width - 1) next →
    q.CompiledAt s' block closed' held p next

theorem ForkedAt.carry (hyes : Carries s s' block yes) (hno : Carries s s' block no)
    (h : ForkedAt s block c yes no closed held p next) (hkept : Kept s s' block p (p + yes.width + no.extent))
    (hlast : StillLast s s' block closed closed' (p + yes.width + no.extent) next) :
    ForkedAt s' block c yes no closed' held p next := by
  have hpos := yes.width_pos
  have hpos' := no.width_pos
  obtain ⟨slot, hstart⟩ := h.start
  have hfirst := h.first
  refine ⟨⟨slot, hkept p _ _ (Nat.le_refl _) (by omega) rfl hstart⟩, ?_, fun hd => ?_⟩
  · cases hd : no.isDone with
    | true =>
      rw [isDone_iff.mp hd, extent_done, Nat.add_zero] at hkept hlast
      rw [hd, Bool.and_true] at hfirst
      rw [Bool.and_true]
      refine hyes hfirst (hkept.mono (by omega) (by omega)) ?_
      rwa [show p + 1 + yes.width - 1 = p + yes.width by omega]
    | false =>
      rw [extent_eq hd] at hkept
      rw [hd, Bool.and_false] at hfirst
      rw [Bool.and_false]
      exact hyes hfirst (hkept.mono (by omega) (by omega)) (hkept.stillLast (by omega) (by omega))
  · rw [extent_eq hd] at hkept hlast
    refine hno (h.second hd) (hkept.mono (by omega) (by omega)) ?_
    rwa [show p + 1 + yes.width + no.width - 1 = p + yes.width + no.width by omega]

theorem carries (q : Program) : Carries s s' block q := by
  intro closed closed' held p next h hkept hlast
  induction q generalizing closed closed' held p next with
  | done =>
    obtain ⟨exit, hb, ho⟩ := h
    exact hlast held exit hb ho
  | step i rest ih => exact ih h hkept hlast
  | branch c yes no rest ihy ihn ihr =>
    cases hrest : rest.isDone with
    | true =>
      obtain rfl := isDone_iff.mp hrest
      rw [width_branch, extent_done,
        show p + (1 + yes.width + no.extent + 0) - 1 = p + yes.width + no.extent by omega]
        at hkept hlast
      rw [compiledAt_branch_last] at h ⊢
      exact h.carry ihy ihn hkept hlast
    | false =>
      have hpos := rest.width_pos
      rw [width_branch, extent_eq hrest] at hkept hlast
      rw [compiledAt_branch hrest] at h ⊢
      refine ⟨h.1.carry ihy ihn (hkept.mono (Nat.le_refl _) (by omega))
        (hkept.stillLast (by omega) (by omega)), ?_⟩
      refine ihr h.2 (hkept.mono (by omega) (by omega)) ?_
      rwa [show p + 1 + yes.width + no.extent + rest.width - 1 =
        p + (1 + yes.width + no.extent + rest.width) - 1 by omega]

theorem CompiledAt.kept (h : q.CompiledAt s block closed held p next)
    (hkept : Kept s s' block p (p + q.width)) :
    q.CompiledAt s' block closed held p next := by
  have hpos := q.width_pos
  exact carries q h (hkept.mono (Nat.le_refl _) (by omega)) (hkept.stillLast (by omega) (by omega))

/-! ## Where blocks lead -/

theorem CompiledAt.start (h : q.CompiledAt s block closed held p next) :
    ∃ more exit, BlockOf s (block p) (held ++ more) exit := by
  induction q generalizing held with
  | done =>
    obtain ⟨exit, hb, -⟩ := h
    exact ⟨[], exit, by rwa [List.append_nil]⟩
  | step i rest ih =>
    obtain ⟨more, exit, hb⟩ := ih h
    exact ⟨i :: more, exit, by rwa [List.append_assoc] at hb⟩
  | branch =>
    obtain ⟨⟨slot, hb⟩, -⟩ := h
    exact ⟨[], _, by rwa [List.append_nil]⟩

/-- The block at position `k` leads ahead, to a place inside of `a` to `b` or to `next`. Only the last one
of a closed program is a stop. -/
def LeadsAhead (s : Store) (block : Nat → NodeId) (closed : Bool) (k b next : Nat) : Prop :=
  ∃ held exit j, BlockOf s (block k) held exit ∧ LeadsTo exit (block j) ∧ k < j ∧ (j < b ∨ j = next) ∧
    ∀ i, exit = .stop i → closed = true ∧ k + 1 = b

theorem LeadsAhead.mono {b b' : Nat} (h : LeadsAhead s block closed k b next) (hb : b ≤ b')
    (hclosed : closed = true → closed' = true ∧ b = b') :
    LeadsAhead s block closed' k b' next := by
  obtain ⟨held, exit, j, hblock, hexit, hj, hj', hstop⟩ := h
  refine ⟨held, exit, j, hblock, hexit, hj, by omega, fun i hi => ?_⟩
  obtain ⟨hc, hk⟩ := hstop i hi
  obtain ⟨hc', rfl⟩ := hclosed hc
  exact ⟨hc', hk⟩

theorem ForkedAt.leadsAhead_of (h : ForkedAt s block c yes no closed held p next)
    (hnext : p + 1 + yes.width + no.extent ≤ next) (hk : p ≤ k) (hk' : k < p + 1 + yes.width + no.extent)
    (hyes : ∀ {closed held p next}, yes.CompiledAt s block closed held p next → p + yes.width ≤ next → p ≤ k →
      k < p + yes.width → LeadsAhead s block closed k (p + yes.width) next)
    (hno : ∀ {closed held p next}, no.CompiledAt s block closed held p next → p + no.width ≤ next → p ≤ k →
      k < p + no.width → LeadsAhead s block closed k (p + no.width) next) :
    LeadsAhead s block closed k (p + 1 + yes.width + no.extent) next := by
  have hpos' := no.width_pos
  by_cases hstart : k = p
  · subst hstart
    obtain ⟨slot, hb⟩ := h.start
    refine ⟨_, _, _, hb, .test, ?_, ?_, nofun⟩
    · split <;> omega
    · cases hd : no.isDone with
      | true => exact .inr rfl
      | false =>
        rw [extent_eq hd]
        exact .inl (by simp; omega)
  · by_cases hlt : k < p + 1 + yes.width
    · refine (hyes h.first (by omega) (by omega) hlt).mono (by omega) fun hc => ?_
      obtain ⟨hc, hd⟩ := Bool.and_eq_true_iff.mp hc
      rw [isDone_iff.mp hd, extent_done]
      exact ⟨hc, rfl⟩
    · cases hd : no.isDone with
      | true =>
        rw [isDone_iff.mp hd, extent_done] at hk'
        omega
      | false =>
        rw [extent_eq hd] at hk' hnext ⊢
        exact hno (h.second hd) hnext (by omega) hk'

theorem CompiledAt.leadsAhead (h : q.CompiledAt s block closed held p next) (hnext : p + q.width ≤ next)
    (hk : p ≤ k) (hk' : k < p + q.width) : LeadsAhead s block closed k (p + q.width) next := by
  induction q generalizing closed held p next with
  | done =>
    obtain ⟨exit, hb, ho⟩ := h
    obtain rfl : k = p := by rw [width] at hk'; omega
    refine ⟨held, exit, next, hb, ho.leadsTo, hnext, .inr rfl, ?_⟩
    rintro i rfl
    refine ⟨?_, rfl⟩
    cases closed with
    | true => rfl
    | false =>
      obtain ⟨_, he⟩ := ho
      cases he
  | step i rest ih => exact ih h hnext hk hk'
  | branch c yes no rest ihy ihn ihr =>
    rw [width_branch] at hnext hk' ⊢
    cases hrest : rest.isDone with
    | true =>
      obtain rfl := isDone_iff.mp hrest
      rw [extent_done] at hnext hk' ⊢
      rw [show p + (1 + yes.width + no.extent + 0) = p + 1 + yes.width + no.extent by omega] at hnext hk' ⊢
      rw [compiledAt_branch_last] at h
      exact h.leadsAhead_of hnext hk hk' (fun h hn hk hk' => ihy h hn hk hk') fun h hn hk hk' =>
        ihn h hn hk hk'
    | false =>
      have hpos := rest.width_pos
      rw [extent_eq hrest] at hnext hk' ⊢
      rw [show p + (1 + yes.width + no.extent + rest.width) =
        p + 1 + yes.width + no.extent + rest.width by omega]
        at hnext hk' ⊢
      rw [compiledAt_branch hrest] at h
      by_cases hlt : k < p + 1 + yes.width + no.extent
      · obtain ⟨held, exit, j, hb, he, hj, hj', hstop⟩ := h.1.leadsAhead_of (Nat.le_refl _) hk hlt
          (fun h hn hk hk' => ihy h hn hk hk') fun h hn hk hk' => ihn h hn hk hk'
        exact ⟨held, exit, j, hb, he, hj, by omega, fun i hi => nomatch (hstop i hi).1⟩
      · exact ihr h.2 hnext (by omega) hk'

theorem CompiledAt.last (h : q.CompiledAt s block closed held p next) (hq : q.WellFormed s)
    (hheld : q.isDone = false ∨ held ≠ []) :
    ∃ held exit, held ≠ [] ∧ BlockOf s (block (p + q.width - 1)) held exit ∧
      Onward block closed (p + q.width - 1) next exit := by
  induction q generalizing closed held p next with
  | done =>
    obtain ⟨exit, hb, ho⟩ := h
    exact ⟨held, exit, hheld.resolve_left nofun, hb, ho⟩
  | step i rest ih => exact ih h hq.2.2 (.inr (by simp))
  | branch c yes no rest ihy ihn ihr =>
    obtain ⟨-, -, hyes, hqy, hqn, hqr⟩ := hq
    cases hrest : rest.isDone with
    | true =>
      obtain rfl := isDone_iff.mp hrest
      rw [compiledAt_branch_last] at h
      rw [width_branch, extent_done]
      cases hno : no.isDone with
      | true =>
        have hfirst := h.first
        rw [hno, Bool.and_true] at hfirst
        have := ihy hfirst hqy (.inl hyes)
        rw [isDone_iff.mp hno, extent_done]
        rwa [show p + 1 + yes.width - 1 = p + (1 + yes.width + 0 + 0) - 1 by omega] at this
      | false =>
        have := ihn (h.second hno) hqn (.inl hno)
        rw [extent_eq hno]
        rwa [show p + 1 + yes.width + no.width - 1 = p + (1 + yes.width + no.width + 0) - 1 by omega] at this
    | false =>
      rw [compiledAt_branch hrest] at h
      have := ihr h.2 hqr (.inl hrest)
      rw [width_branch, extent_eq hrest]
      rwa [show p + 1 + yes.width + no.extent + rest.width - 1 =
        p + (1 + yes.width + no.extent + rest.width) - 1 by omega] at this

/-! ## Chains of conditions -/

/-- The conditions of `if` statements without `else` that are all there is in each other's branch, from
the outside, and the branch of the last one. -/
def chain : Program → List NodeId × Program
  | branch c yes no rest =>
    if no.isDone && rest.isDone then (c :: yes.chain.1, yes.chain.2) else ([], branch c yes no rest)
  | q => ([], q)

theorem chain_branch_last : (branch c yes done done).chain = (c :: yes.chain.1, yes.chain.2) := rfl

theorem chain_branch (h : (no.isDone && rest.isDone) = false) :
    (branch c yes no rest).chain = ([], branch c yes no rest) := by
  rw [chain, h]
  rfl

theorem chain_induction {motive : Program → Prop}
    (last : ∀ c yes, motive yes → motive (branch c yes done done))
    (core : ∀ q, q.chain = ([], q) → motive q) (q : Program) : motive q := by
  induction q with
  | done => exact core _ rfl
  | step => exact core _ rfl
  | branch c yes no rest ihy _ _ =>
    cases hd : no.isDone && rest.isDone with
    | true =>
      obtain ⟨hn, hr⟩ := Bool.and_eq_true_iff.mp hd
      obtain rfl := isDone_iff.mp hn
      obtain rfl := isDone_iff.mp hr
      exact last c yes ihy
    | false => exact core _ (chain_branch hd)

theorem run_chain (outcome : List NodeId → NodeId → Bool) (q : Program) (past : List NodeId) :
    q.run outcome past = if q.chain.1.all (outcome past) then q.chain.2.run outcome past else past := by
  induction q using chain_induction with
  | last c yes ih =>
    simp only [chain_branch_last, run, ih, List.all_cons, Bool.and_eq_true, ite_and]
  | core q h => simp [h]

theorem chain_chain (q : Program) : q.chain.2.chain = ([], q.chain.2) := by
  induction q using chain_induction with
  | last c yes ih => exact ih
  | core q h => rw [h, h]

theorem width_chain (q : Program) : q.width = q.chain.1.length + q.chain.2.width := by
  induction q using chain_induction with
  | last c yes ih =>
    rw [width_branch, chain_branch_last, extent_done, ih]
    simp only [List.length_cons]
    omega
  | core q h => simp [h]

theorem WellFormed.chain (h : q.WellFormed s) :
    q.chain.2.WellFormed s ∧ (∀ c ∈ q.chain.1, Bare s c ∧ ∃ op l r, s.node c = .binary op l r ∧
      isComparison op = true) ∧
      (q.isDone = false → q.chain.2.isDone = false) := by
  induction q using chain_induction with
  | last c yes ih =>
    obtain ⟨hop, hc, hyes, hy, -, -⟩ := h
    obtain ⟨hcore, hcs, hd⟩ := ih hy
    refine ⟨hcore, fun c' hc' => ?_, fun _ => hd hyes⟩
    rcases List.mem_cons.mp hc' with rfl | hc'
    · exact ⟨hc, hop⟩
    · exact hcs c' hc'
  | core q hq =>
    rw [hq]
    exact ⟨h, nofun, id⟩

theorem CompiledAt.chain (h : q.CompiledAt s block closed [] p next) :
    (∀ k c, q.chain.1[k]? = some c →
      ∃ slot, BlockOf s (block (p + k)) [] (.test c (block (p + k + 1)) (block next) slot)) ∧
      q.chain.2.CompiledAt s block closed [] (p + q.chain.1.length) next := by
  induction q using chain_induction generalizing p with
  | last c yes ih =>
    rw [compiledAt_branch_last] at h
    have hfirst := h.first
    rw [show (closed && done.isDone) = closed from Bool.and_true _] at hfirst
    obtain ⟨hcs, hcore⟩ := ih hfirst
    rw [chain_branch_last]
    refine ⟨fun k c' hk => ?_, ?_⟩
    · cases k with
      | zero =>
        cases hk
        exact h.start
      | succ k =>
        have := hcs k c' hk
        rwa [show p + 1 + k = p + (k + 1) by omega] at this
    · rwa [List.length_cons, show p + (yes.chain.1.length + 1) = p + 1 + yes.chain.1.length by omega]
  | core q hq =>
    rw [hq]
    exact ⟨nofun, h⟩

end

end Program

end LuaLift.Proofs
