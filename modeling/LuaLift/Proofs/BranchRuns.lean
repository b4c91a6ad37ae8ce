import LuaLift.Proofs.BranchRecovery
import LuaLift.Proofs.ChainJoining
import LuaLift.Proofs.ConditionRecovery

/-! # Running structured branches

What a list of statements runs is told by the outcomes of the comparisons (`Executes`). Structuring the
branches of a compiled program and joining the chains of blocks gives statements that run what the
program does, whatever the outcomes are. -/
namespace LuaLift.Proofs
open Tree Flow Program

/-! ## What statements run -/

/-- The truth of a condition, from the outcomes of its comparisons. -/
inductive Tells (s : Store) (outcome : NodeId → Bool) : NodeId → Bool → Prop
  | compare {c op l r} : s.node c = .binary op l r → isComparison op = true → Tells s outcome c (outcome c)
  | and {i l r a b} : s.node i = .binary .and l r → Tells s outcome l a → Tells s outcome r b →
      Tells s outcome i (a && b)

/-- Statements run those of `after` in all if those of `past` have been run before. -/
inductive Executes (s : Store) (outcome : List NodeId → NodeId → Bool) :
    List NodeId → List NodeId → List NodeId → Prop
  | nil {past} : Executes s outcome [] past past
  | step {i is past after} : isIf (s.node i) = false → Executes s outcome is (past ++ [i]) after →
      Executes s outcome (i :: is) past after
  | choose {i is d t e b body past mid after} : s.node i = .ifElse d t [] e → Tells s (outcome past) d b →
      s.node (if b then t else e) = .list .statements body → Executes s outcome body past mid →
      Executes s outcome is mid after → Executes s outcome (i :: is) past after

section
variable {s s' : Store} {outcome : List NodeId → NodeId → Bool} {q yes no rest : Program} {c d t : NodeId}
  {cs ks xs past : List NodeId} {rows rows' : Rows}

theorem Tells.det {outcome : NodeId → Bool} {a b : Bool} (h : Tells s outcome c a)
    (h' : Tells s outcome c b) : a = b := by
  induction h generalizing b with
  | compare hc hop =>
    cases h' with
    | compare => rfl
    | and hi =>
      rw [hc] at hi; cases hi
      cases hop
  | and hi _ _ ihl ihr =>
    cases h' with
    | compare hc hop =>
      rw [hi] at hc; cases hc
      cases hop
    | and hi' hl hr =>
      rw [hi] at hi'; cases hi'
      rw [ihl hl, ihr hr]

theorem Executes.det {after after' : List NodeId} (h : Executes s outcome xs past after)
    (h' : Executes s outcome xs past after') : after = after' := by
  induction h generalizing after' with
  | nil =>
    cases h'
    rfl
  | step hi _ ih =>
    cases h' with
    | step _ h => exact ih h
    | choose hi' =>
      rw [hi'] at hi
      cases hi
  | choose hi hd hbody _ _ ihb ih =>
    cases h' with
    | step hi' =>
      rw [hi] at hi'
      cases hi'
    | choose hi' hd' hbody' hb' h' =>
      rw [hi] at hi'; cases hi'
      obtain rfl := hd.det hd'
      rw [hbody] at hbody'; cases hbody'
      obtain rfl := ihb hb'
      exact ih h'

/-! ## Structured programs -/

theorem Conjunction.tells {outcome : NodeId → Bool} (h : Conjunction s cs d)
    (hcs : ∀ c ∈ cs, ∃ op l r, s.node c = .binary op l r ∧ isComparison op = true) :
    Tells s outcome d (cs.all outcome) := by
  induction h with
  | one =>
    obtain ⟨op, l, r, hc, hop⟩ := hcs _ List.mem_cons_self
    rw [List.all_cons, List.all_nil, Bool.and_true]
    exact .compare hc hop
  | @more cs c l i hi _ ih =>
    obtain ⟨op, l', r, hc, hop⟩ := hcs c (List.mem_append_right _ List.mem_cons_self)
    rw [List.all_append, List.all_cons, List.all_nil, Bool.and_true]
    exact .and hi (ih fun c hc => hcs c (List.mem_append_left _ hc)) (.compare hc hop)

theorem Program.run_opening (outcome : List NodeId → NodeId → Bool) (c : NodeId) (yes no rest : Program)
    (past : List NodeId) : (branch c yes no rest).run outcome past =
      rest.run outcome
        (if (c :: (opening yes no).1).all (outcome past) then (opening yes no).2.run outcome past
        else no.run outcome past) := by
  rw [run, List.all_cons]
  cases hno : no.isDone with
  | true =>
    obtain rfl := isDone_iff.mp hno
    rw [show opening yes done = yes.chain from rfl, yes.run_chain]
    simp only [Bool.and_eq_true, ite_and, run]
  | false => simp [opening, hno]

theorem Program.WellFormed.comparisons (h : (branch c yes no rest).WellFormed s) :
    ∀ x ∈ c :: (Program.opening yes no).1, ∃ op l r, s.node x = .binary op l r ∧ isComparison op = true := by
  obtain ⟨hc, -, -, hyes, -⟩ := h
  intro x hx
  rcases List.mem_cons.mp hx with rfl | hx
  · exact hc
  · unfold Program.opening at hx
    split at hx
    · exact (hyes.chain.2.1 x hx).2
    · cases hx

/-- The lists that hold chains of blocks now hold the statements of those blocks. -/
structure Joins (s s' : Store) (rows : Rows) : Prop where
  bare : BareKept s s'
  lists : ∀ t ks xs, (t, ks) ∈ rows → Chained s ks xs → s'.node t = .list .statements xs

theorem Joins.left (h : Joins s s' (rows ++ rows')) : Joins s s' rows :=
  ⟨h.bare, fun t ks xs hmem => h.lists t ks xs (List.mem_append_left _ hmem)⟩

theorem Joins.right (h : Joins s s' (rows ++ rows')) : Joins s s' rows' :=
  ⟨h.bare, fun t ks xs hmem => h.lists t ks xs (List.mem_append_right _ hmem)⟩

theorem Listed.joined (h : Listed s t xs rows) (hj : Joins s s' rows) : s'.node t = .list .statements xs := by
  cases h with
  | empty ht => rw [hj.bare t (by rw [ht]; nofun) (by rw [ht]; rfl), ht]
  | chain _ hc => exact hj.lists t _ _ List.mem_cons_self hc

/-- Joined statements run what their program does. -/
theorem Represents.executes (h : Represents s q xs rows) (hq : q.WellFormed s) (hj : Joins s s' rows)
    (past : List NodeId) : Executes s' outcome xs past (q.run outcome past) := by
  have hkept : ∀ {i n}, s.node i = n → n ≠ .absent → holdsStatements n = false → s'.node i = n := by
    rintro i _ rfl hn hh
    exact hj.bare i hn hh
  induction h generalizing past with
  | done => exact .nil
  | @step i rest xs rows _ ih =>
    obtain ⟨hi, hif, hrest⟩ := hq
    refine .step ?_ (ih hrest hj _)
    cases hi with
    | intro hn hh _ => rwa [hj.bare i hn hh]
  | @branch i c d t e yes no rest ts es xs rt rt' re re' rows hi hc ht _ he _ _ iht ihe ih =>
    have hcomparisons := hq.comparisons
    obtain ⟨-, -, hyes, hqy, hqn, hqr⟩ := hq
    have htells : Tells s' (outcome past) d ((c :: (opening yes no).1).all (outcome past)) := by
      refine (hc.carry fun i l r hi => hkept hi nofun rfl).tells fun x hx => ?_
      obtain ⟨op, l, r, hx, hop⟩ := hcomparisons x hx
      exact ⟨op, l, r, hkept hx nofun rfl, hop⟩
    rw [run_opening]
    generalize (c :: (opening yes no).1).all (outcome past) = b at htells ⊢
    cases b with
    | true =>
      exact .choose (hkept hi nofun rfl) htells (ht.joined hj.left.left.left)
        (iht (hqy.opening hyes no).1 hj.left.left.right past) (ih hqr hj.right _)
    | false =>
      exact .choose (hkept hi nofun rfl) htells (he.joined hj.left.right.left)
        (ihe hqn hj.left.right.right past)
        (ih hqr hj.right _)

theorem Chains.append (h : Chains s rows) (h' : Chains s rows') : Chains s (rows ++ rows') :=
  fun t ks hmem => (List.mem_append.mp hmem).elim (h t ks) (h' t ks)

theorem Listed.chains (h : Listed s t xs rows) : Chains s rows := by
  cases h with
  | empty => nofun
  | chain ht hc =>
    intro t' ks' hmem
    cases List.mem_singleton.mp hmem
    exact ⟨ht, _, hc⟩

theorem Represents.chains (h : Represents s q xs rows) : Chains s rows := by
  induction h with
  | done => nofun
  | step _ ih => exact ih
  | branch _ _ ht _ he _ _ iht ihe ih =>
    exact ((ht.chains.append iht).append (he.chains.append ihe)).append ih

theorem Holding.chains (h : Holding s t q rows) : Chains s rows := by
  obtain ⟨xs, rt, rt', hl, hr, rfl⟩ := h
  exact hl.chains.append hr.chains

theorem Holding.gathers (h : Holding s t q rows) (hq : q.WellFormed s) : Gathers s [t] rows.lists := by
  obtain ⟨xs, rt, rt', hl, hr, rfl⟩ := h
  rw [Rows.lists_append]
  exact hl.gathers (hr.gathers hq)

theorem Holding.executes (h : Holding s t q rows) (hq : q.WellFormed s) (hj : Joins s s' rows) :
    ∃ xs, s'.node t = .list .statements xs ∧
      ∀ outcome past after, Executes s' outcome xs past after ↔ after = q.run outcome past := by
  obtain ⟨xs, rt, rt', hl, hr, rfl⟩ := h
  refine ⟨xs, hl.joined hj.left, fun outcome past after => ?_⟩
  have hruns : Executes s' outcome xs past (q.run outcome past) := hr.executes hq hj.right past
  exact ⟨fun h => h.det hruns, fun h => h ▸ hruns⟩

end

/-! ## Functions -/

/-- The blocks of a list by their positions. -/
def positioned (blocks : List NodeId) (k : Nat) : NodeId := blocks.getD k .absent

theorem segment_positioned (blocks : List NodeId) : segment (positioned blocks) 0 blocks.length = blocks := by
  refine List.ext_getElem? fun k => ?_
  rw [getElem?_segment, Nat.zero_add]
  split
  · rename_i hk
    rw [positioned, List.getD_eq_getElem?_getD, List.getElem?_eq_getElem hk, Option.getD_some]
  · rename_i hk
    rw [List.getElem?_eq_none (Nat.le_of_not_lt hk)]

/-- A function with the blocks of a program that ends in a `return`. -/
structure Program.CompiledTo (s : Store) (q : Program) (root : NodeId) (blocks : List NodeId) : Prop where
  missing : s.node .absent = .absent
  function : ∃ arguments list scope, s.node root = .function arguments list scope ∧ Bare s arguments ∧
    s.node list = .list .statements blocks
  length : blocks.length = q.width
  ordered : blocks.Pairwise fun i j => blockIndex s i < blockIndex s j
  wellFormed : q.WellFormed s
  ends : q.EndsWith fun i => ∃ values, s.node i = .ret values
  compiled : q.CompiledAt s (positioned blocks) true [] 0 blocks.length

section
variable {s : Store} {q : Program} {root : NodeId} {blocks : List NodeId}

theorem Program.EndsWith.endsInBranch {P : NodeId → Prop} (h : q.EndsWith P) : q.endsInBranch = false := by
  induction q with
  | done => rfl
  | step i rest ih =>
    rw [EndsWith] at h
    split at h
    · rename_i hd
      rw [isDone_iff.mp hd]
      rfl
    · exact ih h
  | branch c yes no rest _ _ ih =>
    have hd : rest.isDone = false := by
      cases rest with
      | done => exact h.elim
      | _ => rfl
    rw [Program.endsInBranch, hd, Bool.false_or]
    exact ih h

theorem Program.CompiledTo.inOrder (h : q.CompiledTo s root blocks) :
    InOrder s (positioned blocks) (blocks.length - 1) := by
  have hpos := q.width_pos
  have hlen := h.length
  have hget : ∀ k < blocks.length, blocks[k]? = some (positioned blocks k) := fun k hk => by
    rw [positioned, List.getD_eq_getElem?_getD, List.getElem?_eq_getElem hk, Option.getD_some]
  refine ⟨h.missing, fun k hk => ?_, fun i j hij hj => ?_⟩
  · obtain ⟨held, exit, j, ⟨b, hb, -⟩, -⟩ :=
      h.compiled.leadsAhead (k := k) (by omega) (Nat.zero_le _) (by omega)
    exact ⟨b, hb⟩
  · obtain ⟨hi', hi⟩ := List.getElem?_eq_some_iff.mp (hget i (by omega))
    obtain ⟨hj', hj⟩ := List.getElem?_eq_some_iff.mp (hget j (by omega))
    have := List.pairwise_iff_getElem.mp h.ordered i j hi' hj' hij
    rwa [hi, hj] at this

/-! ## Blocks without loops -/

section
variable {list : NodeId} {isRepeat : Bool}
  (h : ∀ i ∈ blocks, ∃ b, s.node i = .block b ∧ ∀ t, LeadsTo (s.node b.exit) t →
    s.node b.exit = .stop t ∨ ∃ c, s.node t = .block c ∧ b.index < c.index)
include h

theorem returns_loopsFrom (fuel k : Nat) : Returns (loopsFrom blocks isRepeat fuel k) ⟨s, ()⟩ [] ⟨s, ()⟩ := by
  have hindex {i : NodeId} {b : Block} (hi : s.node i = .block b) :
      Returns (indexOf i) ⟨s, ()⟩ b.index ⟨s, ()⟩ :=
    (returns_of_block (w := ⟨s, ()⟩) hi).ofBind rfl
  induction fuel generalizing k with
  | zero => rfl
  | succ fuel ih =>
    unfold loopsFrom
    split
    · rfl
    rename_i i hi
    obtain ⟨b, hb, hahead⟩ := h i (List.mem_of_getElem? hi)
    refine Returns.ofBind ((returns_of_block (w := ⟨s, ()⟩) hb).ofBind rfl) ?_
    rw [show Store.node _ b.exit = s.node b.exit from rfl]
    cases hexit : s.node b.exit with
    | jump kind t closes | test e n t slot =>
      obtain ⟨c, hc, hlt⟩ := (hahead t (by rw [hexit]; constructor)).resolve_left (by simp [hexit])
      dsimp only
      split
      · exact ih _
      · refine (hindex hc).ofBind ((hindex hb).ofBind ?_)
        first | rw [if_neg (by omega)] | rw [if_pos hlt]
        exact ih _
    | _ => exact ih _

/-- Where each exit leads to a later block or ends a part, no loop is found and nothing changes. -/
theorem returns_resolveLoops (hl : s.node list = .list .statements blocks) :
    Returns (resolveLoops isRepeat list) ⟨s, ()⟩ blocks ⟨s, ()⟩ := by
  have hitems : Returns (Pass.items list) ⟨s, ()⟩ blocks ⟨s, ()⟩ :=
    Returns.ofBind (a := s.node list) rfl (by rw [hl]; rfl)
  have hfind : Returns (findLoops blocks isRepeat) ⟨s, ()⟩ [] ⟨s, ()⟩ := by
    refine (returns_loopsFrom h _ _).ofBind ?_
    rw [List.mapM_nil, pure_bind, List.mergeSort_nil]
    rfl
  exact hitems.ofBind (hfind.ofBind rfl)

end

/-! ## Structuring and joining -/

variable {a b : Nat} {block : Nat → NodeId}

theorem nodup_segment (h : ∀ i < b, ∀ j < b, block i = block j → i = j) : (segment block a b).Nodup := by
  refine List.Nodup.map_on (fun i hi j hj he => ?_) List.nodup_range'
  rw [List.mem_range'_1] at hi hj
  exact h i (by omega) j (by omega) he

variable {ks : List NodeId} {hi lo : Nat} {rows : Rows}

theorem Owns.nodup {last : Nat} (h : Owns block a b lo hi ks rows) (hb : InOrder s block last)
    (hlast : b ≤ last + 1) : (ks ++ rows.blocks).Nodup ∧ rows.lists.Nodup := by
  refine ⟨List.nodup_iff_count_le_one.mpr fun x => Nat.le_trans (h.blocks x) ?_,
    List.nodup_iff_count_le_one.mpr fun x => Nat.le_trans (h.lists x) ?_⟩
  · exact List.nodup_iff_count_le_one.mp (nodup_segment fun i hi j hj => (hb.inj (by omega) (by omega)).mp) x
  · exact List.nodup_iff_count_le_one.mp (nodup_segment fun i _ j _ he => NodeId.mk.inj he) x

theorem Owns.le_of_mem {t : NodeId} (h : Owns block a b lo hi ks rows) (ht : t ∈ rows.lists) :
    lo ≤ t.index := by
  have hcount := h.lists t
  have hpos : 0 < rows.lists.count t := List.count_pos_iff.mpr ht
  obtain ⟨k, hk, -, rfl⟩ := mem_segment.mp (List.count_pos_iff.mp (Nat.lt_of_lt_of_le hpos hcount))
  exact hk

/-- A function whose list of statements holds a program. -/
structure Program.HeldBy (s : Store) (q : Program) (root list : NodeId) (rows : Rows) : Prop where
  function : ∃ arguments scope, s.node root = .function arguments list scope ∧ Bare s arguments
  wellFormed : q.WellFormed s
  holding : Holding s list q rows

variable {list arguments : NodeId} {scope : Scope}

theorem gathers_function {ls : List NodeId} (hf : s.node root = .function arguments list scope)
    (ha : Bare s arguments) (hl : Gathers s [list] ls) : Gathers s [root] ls := by
  refine .single (by rw [hf]; nofun) (by rw [hf]; rfl) ?_
  rw [hf]
  exact ha.gathers.append hl

theorem Program.HeldBy.gathers (h : q.HeldBy s root list rows) : Gathers s [root] rows.lists := by
  obtain ⟨arguments, scope, hf, ha⟩ := h.function
  exact gathers_function hf ha (h.holding.gathers h.wellFormed)

theorem Program.HeldBy.carry {s' : Store} (h : q.HeldBy s root list rows) (hs : BareKept s s')
    (hrows : RowsKept s s' rows) : q.HeldBy s' root list rows := by
  obtain ⟨arguments, scope, hf, ha⟩ := h.function
  refine ⟨⟨arguments, scope, ?_, ha.carry hs⟩, h.wellFormed.carry hs, h.holding.carry hs hrows⟩
  rw [hs root (by rw [hf]; nofun) (by rw [hf]; rfl), hf]

theorem Program.CompiledTo.gathers (h : q.CompiledTo s root blocks)
    (hl : s.node list = .list .statements blocks) : Gathers s [list] [list] := by
  have hpos := q.width_pos
  have hlen := h.length
  have hblocks := h.compiled.gathers h.wellFormed nofun
  rw [Nat.zero_add, ← hlen, segment_positioned] at hblocks
  have hfilled : isFilled (s.node list) = true := by
    rw [hl]
    cases hb : blocks with
    | nil =>
      rw [hb, List.length_nil] at hlen
      omega
    | cons => rfl
  have := Gathers.cons (by rw [hl]; nofun) (by rw [hl]; exact hblocks) .nil
  rwa [hfilled, if_pos rfl, List.append_nil] at this

theorem Program.CompiledTo.resolveBranches (h : q.CompiledTo s root blocks) :
    Succeeds (resolveBranches blocks) ⟨s, ()⟩ fun ks w' => ∃ xs rows,
      Remnant (positioned blocks) 0 blocks.length q [] s w'.store ks xs rows := by
  have hpos := q.width_pos
  have hlen := h.length
  have hinner : Handles (positioned blocks) (blocks.length - 1) blocks.length (branches blocks.length) :=
    handles_branches _ _ _
  have hloop : Succeeds (branchesFrom (branches blocks.length) (segment (positioned blocks) 0 blocks.length)
      (positioned blocks blocks.length) (blocks.length + 1) (0 - 0)) ⟨s, ()⟩ _ :=
    hinner.loop h.wellFormed h.inOrder h.compiled (by omega) (by omega) (Nat.le_refl 0) (by omega)
      (Nat.le_refl _) (by omega) fun he => by rw [h.ends.endsInBranch] at he; cases he
  have habsent : positioned blocks blocks.length = .absent := by simp [positioned]
  rw [segment_positioned, Nat.sub_zero, habsent] at hloop
  exact hloop.next fun regions w' hleft => .pure hleft

theorem succeeds_setList {w : Work Unit} {ks' : List NodeId} (h : w.store.node list = .list .statements ks) :
    Succeeds (Pass.setItems list ks') w fun _ w' =>
      w'.store = w.store.setNode list (.list .statements ks') := by
  refine Succeeds.bind (succeeds_node ?_)
  rw [h]
  exact succeeds_modifyStore rfl

/-- A function holds a program, and no list or block is there twice. -/
def Program.HeldApart (s : Store) (q : Program) (root list : NodeId) : Prop :=
  ∃ rows : Rows, q.HeldBy s root list rows ∧ rows.lists.Nodup ∧ rows.blocks.Nodup

section
variable (h : q.CompiledTo s root blocks) (hf : s.node root = .function arguments list scope)
  (ha : Bare s arguments) (hl : s.node list = .list .statements blocks)
include h hf ha hl

/-- What is left of the blocks is put into the list of the function. -/
theorem Program.CompiledTo.heldBy {s' : Store} {xs : List NodeId}
    (hleft : Remnant (positioned blocks) 0 blocks.length q [] s s' ks xs rows) :
    BareKept s (s'.setNode list (.list .statements ks)) ∧
      q.HeldBy (s'.setNode list (.list .statements ks)) root list ([(list, ks)] ++ rows) := by
  have hpos := q.width_pos
  have hlen := h.length
  have hothers := hleft.reshapes.othersKept h.inOrder (by omega)
  have hl' : s'.node list = .list .statements blocks := hothers _ _ hl nofun nofun
  have hne : blocks ≠ [] := by
    rintro rfl
    rw [List.length_nil] at hlen
    omega
  have hset : ∀ i, i ≠ list → (s'.setNode list (.list .statements ks)).node i = s'.node i :=
    fun i hi => node_setNode_of_ne hi
  have hbare : BareKept s' (s'.setNode list (.list .statements ks)) := fun i _ hi => hset i fun he => by
    subst he
    rw [hl'] at hi
    cases hb : blocks with
    | nil => exact hne hb
    | cons => rw [hb] at hi; cases hi
  have hblocks : ∀ i held exit, exit.isExit = true → BlockOf s' i held exit →
      BlockOf (s'.setNode list (.list .statements ks)) i held exit := by
    rintro i held exit hexit ⟨b, hb, rfl, rfl⟩
    refine ⟨b, ?_, rfl, hset _ ?_⟩
    · rw [hset i (by rintro rfl; rw [hl'] at hb; cases hb), hb]
    · intro he
      rw [he, hl'] at hexit
      cases hexit
  have hrows : RowsKept s' (s'.setNode list (.list .statements ks)) rows := by
    refine ⟨fun t ht ks' hks' => ?_, fun i _ => hblocks i⟩
    rw [hset t ?_, hks']
    rintro rfl
    have := hleft.owns.le_of_mem ht
    have := inside_of_node (s := s) (i := t) (by rw [hl]; nofun)
    omega
  have hall := hothers.bare.trans hbare
  refine ⟨hall, ⟨arguments, scope, ?_, ha.carry hall⟩, h.wellFormed.carry hall, xs, [(list, ks)],
    rows, ?_, ?_, rfl⟩
  · rw [hall root (by rw [hf]; nofun) (by rw [hf]; rfl), hf]
  · refine .chain (node_setNode_self (inside_of_node (by rw [hl']; nofun))) ?_
    exact hleft.chained.carry fun i _ held exit => hblocks i held exit
  · exact hleft.represents.carry hbare hrows

theorem Program.CompiledTo.apply :
    Succeeds (do Pass.setItems list (← Stage.branches.apply list)) ⟨s, ()⟩ fun _ w' =>
      BareKept s w'.store ∧ q.HeldApart w'.store root list := by
  have hitems : Returns (Pass.items list) ⟨s, ()⟩ blocks ⟨s, ()⟩ := by
    refine Returns.ofBind (rfl : Returns (Pass.node list) ⟨s, ()⟩ _ _) ?_
    rw [hl]
    rfl
  refine Succeeds.bind
    (Succeeds.bind ⟨_, _, hitems, h.resolveBranches.mono fun ks w1 ⟨xs, rows, hleft⟩ => ?_⟩)
  have hl1 : w1.store.node list = .list .statements blocks :=
    hleft.reshapes.othersKept h.inOrder (by omega) _ _ hl nofun nofun
  refine (succeeds_setList hl1).mono fun _ w2 hw2 => ?_
  obtain ⟨hbare, hheld⟩ := h.heldBy hf ha hl hleft
  obtain ⟨hblocks, hlists⟩ := hleft.owns.nodup h.inOrder (by omega)
  have hfresh : list ∉ rows.lists := fun hmem => by
    have := hleft.owns.le_of_mem hmem
    have := inside_of_node (s := s) (i := list) (by rw [hl]; nofun)
    omega
  rw [hw2]
  refine ⟨hbare, _, hheld, List.nodup_cons.mpr ⟨hfresh, hlists⟩, ?_⟩
  rwa [Rows.blocks_append, Rows.blocks_singleton]

end

theorem Program.CompiledTo.stage (h : q.CompiledTo s root blocks) :
    Succeeds (Stage.branches.run root) ⟨s, ()⟩ fun _ w' => BareKept s w'.store ∧ ∃ list,
      q.HeldApart w'.store root list := by
  obtain ⟨arguments, list, scope, hf, ha, hl⟩ := h.function
  refine Succeeds.bind ⟨_, _, Gathers.statementLists (gathers_function hf ha (h.gathers hl)), ?_⟩
  have hone : Succeeds ([list].forM fun list => do Pass.setItems list (← Stage.branches.apply list))
    ⟨s, ()⟩ fun _ w' =>
      BareKept s w'.store ∧ q.HeldApart w'.store root list := (h.apply hf ha hl).next
        fun _ _ hpost => .pure hpost
  refine hone.next fun _ w1 ⟨hbare, rows, hheld, hnodup⟩ => ?_
  refine Succeeds.bind ⟨_, _, Gathers.statementLists hheld.gathers, ?_⟩
  refine (succeeds_renumberAll fun t ht => ?_).mono fun _ w2 hre => ?_
  · obtain ⟨⟨t', ks⟩, hmem, rfl⟩ := List.mem_map.mp ht
    exact ⟨ks, (hheld.holding.chains t' ks hmem).1⟩
  · refine ⟨hbare.trans hre.othersKept.bare, list, rows, hheld.carry hre.othersKept.bare ?_, hnodup⟩
    exact hre.othersKept.rowsKept fun i _ held exit hexit hb => hre.blockOf hexit hb

theorem Program.HeldBy.join {w : Work Unit} (h : q.HeldBy w.store root list rows)
    (hlists : rows.lists.Nodup) (hblocks : rows.blocks.Nodup) :
    Succeeds (join root) w fun _ w' => Joins w.store w'.store rows := by
  have hchains := h.holding.chains
  refine Succeeds.bind ⟨_, _, Gathers.statementLists h.gathers, ?_⟩
  refine (succeeds_joinAll hchains hlists hblocks).mono fun _ w' ⟨ha, hjoined⟩ => ⟨fun i hi hh => ?_, hjoined⟩
  refine ha.node hi ?_
  rintro (hmem | hmem)
  · obtain ⟨⟨t, ks⟩, hrow, rfl⟩ := List.mem_map.mp hmem
    obtain ⟨ht, xs, hc⟩ := hchains t ks hrow
    rw [ht] at hh
    cases ks with
    | nil => exact hc.ne_nil rfl
    | cons => cases hh
  · obtain ⟨⟨t, ks⟩, hrow, hi'⟩ := List.mem_flatMap.mp hmem
    obtain ⟨-, xs, hc⟩ := hchains t ks hrow
    obtain ⟨b, hb⟩ := hc.isBlock i hi'
    rw [hb] at hh
    cases hh

/-- On a function with the blocks of a program, structuring branches and joining complete. The statements
are then run as the program runs them, whatever the outcomes of the comparisons are, and the parts of
the basic statements are as they were. -/
theorem structured_runs_program (h : q.CompiledTo s root blocks) :
    ∃ s' arguments list scope xs, Edit.run' (do Stage.branches.run root; join root) s = (.ok (), s') ∧
      s'.node root = .function arguments list scope ∧ s'.node list = .list .statements xs ∧
      (∀ i, Bare s i → s'.node i = s.node i) ∧
      ∀ outcome after, Executes s' outcome xs [] after ↔ after = q.run outcome [] := by
  obtain ⟨_, w1, hrun, hbare, list, rows, hheld, hlists, hblocks⟩ := h.stage
  obtain ⟨_, w2, hrun', hjoins⟩ := hheld.join hlists hblocks
  obtain ⟨arguments, scope, hf, -⟩ := hheld.function
  obtain ⟨xs, hxs, hexec⟩ := hheld.holding.executes hheld.wellFormed hjoins
  have hall : Returns (do Stage.branches.run root; join root) ⟨s, ()⟩ () w2 := hrun.ofBind hrun'
  refine ⟨w2.store, arguments, list, scope, xs, ?_, ?_, hxs, fun i hi => ?_,
    fun outcome after => hexec outcome [] after⟩
  · rw [Edit.run', show (do Stage.branches.run root; join root : Edit Unit) ⟨s, ()⟩ = .ok () w2 from hall]
  · rw [hjoins.bare root (by simp [hf]) (by rw [hf]; rfl), hf]
  · cases hi with
    | intro hn hh _ => exact hbare.trans hjoins.bare i hn hh

end

/-- A call, an `if` whose first branch ends in another `if`, and a `return`. -/
def tailBranch : Program :=
  .step ⟨7⟩ (.branch ⟨3⟩ (.step ⟨8⟩ (.branch ⟨4⟩ (.step ⟨9⟩ .done) .done .done)) (.step ⟨10⟩ .done)
    (.step ⟨12⟩ .done))

/-- The blocks of `tailBranch`: the inner `if` goes on where the outer one does. -/
def tailBlocks : Store := numbered [
  slotAt 0,
  slotAt 1,
  .binary .less ⟨1⟩ ⟨2⟩,
  .binary .equal ⟨1⟩ ⟨2⟩,
  .identifier { kind := .builtin, name := some "f" },
  .list .expressions [],
  .call ⟨5⟩ ⟨6⟩,
  .call ⟨5⟩ ⟨6⟩,
  .call ⟨5⟩ ⟨6⟩,
  .call ⟨5⟩ ⟨6⟩,
  .list .expressions [],
  .ret ⟨11⟩,
  .test ⟨3⟩ ⟨19⟩ ⟨21⟩ none,
  .test ⟨4⟩ ⟨20⟩ ⟨22⟩ none,
  .jump .jump ⟨22⟩ false,
  .jump .flow ⟨22⟩ false,
  .stop .absent,
  .block { index := 0, contents := [⟨7⟩], exit := ⟨13⟩ },
  .block { index := 1, contents := [⟨8⟩], exit := ⟨14⟩ },
  .block { index := 2, contents := [⟨9⟩], exit := ⟨15⟩ },
  .block { index := 3, contents := [⟨10⟩], exit := ⟨16⟩ },
  .block { index := 4, contents := [⟨12⟩], exit := ⟨17⟩ },
  .list .identifiers [],
  .list .statements [⟨18⟩, ⟨19⟩, ⟨20⟩, ⟨21⟩, ⟨22⟩],
  .function ⟨23⟩ ⟨24⟩ {}]

theorem bare_tailBlocks : ∀ i ∈ [3, 4, 7, 8, 9, 10, 12, 23], Bare tailBlocks ⟨i⟩ := by
  have hleaf : ∀ i ∈ [1, 2, 5, 6, 11, 23], Bare tailBlocks ⟨i⟩ := by
    simp only [List.forall_mem_cons]
    refine ⟨?_, ?_, ?_, ?_, ?_, ?_, nofun⟩ <;> exact .intro (by decide) rfl nofun
  have hnode : ∀ i ∈ [3, 4, 7, 8, 9, 10, 12, 23], tailBlocks.node ⟨i⟩ ≠ .absent ∧
      holdsStatements (tailBlocks.node ⟨i⟩) = false ∧
      ∀ c ∈ (tailBlocks.node ⟨i⟩).children, c.index ∈ [1, 2, 5, 6, 11, 23] := by decide
  intro i hi
  obtain ⟨hn, hh, hc⟩ := hnode i hi
  exact .intro hn hh fun c hmem => hleaf c.index (hc c hmem)

theorem compiledTo_tailBranch : tailBranch.CompiledTo tailBlocks ⟨25⟩ [⟨18⟩, ⟨19⟩, ⟨20⟩, ⟨21⟩, ⟨22⟩] where
  missing := rfl
  function := ⟨⟨23⟩, ⟨24⟩, {}, rfl, bare_tailBlocks 23 (by decide), rfl⟩
  length := rfl
  ordered := by decide
  wellFormed := by
    have hbare := bare_tailBlocks
    simp only [List.forall_mem_cons] at hbare
    obtain ⟨h3, h4, h7, h8, h9, h10, h12, -⟩ := hbare
    exact ⟨h7, rfl, ⟨_, _, _, rfl, rfl⟩, h3, rfl,
      ⟨h8, rfl, ⟨_, _, _, rfl, rfl⟩, h4, rfl, ⟨h9, rfl, trivial⟩, trivial, trivial⟩,
      ⟨h10, rfl, trivial⟩, h12, rfl, trivial⟩
  ends := ⟨_, rfl⟩
  compiled := by
    refine ⟨⟨none, _, rfl, rfl, rfl⟩, ⟨⟨none, _, rfl, rfl, rfl⟩, ?_, nofun, nofun⟩, fun _ => ?_, fun _ => ?_⟩
    · exact ⟨_, ⟨_, rfl, rfl, rfl⟩, false, rfl⟩
    · exact ⟨_, ⟨_, rfl, rfl, rfl⟩, false, rfl⟩
    · exact ⟨_, ⟨_, rfl, rfl, rfl⟩, rfl⟩

theorem structured_runs_tailBranch :
    tailBranch.CompiledTo tailBlocks ⟨25⟩ [⟨18⟩, ⟨19⟩, ⟨20⟩, ⟨21⟩, ⟨22⟩] ∧
    ∃ s' arguments list scope xs, Edit.run' (do Stage.branches.run ⟨25⟩; join ⟨25⟩) tailBlocks =
      (.ok (), s') ∧
      s'.node ⟨25⟩ = .function arguments list scope ∧ s'.node list = .list .statements xs ∧
      (∀ i, Bare tailBlocks i → s'.node i = tailBlocks.node i) ∧
      ∀ outcome after, Executes s' outcome xs [] after ↔ after = tailBranch.run outcome [] :=
  ⟨compiledTo_tailBranch, structured_runs_program compiledTo_tailBranch⟩

end LuaLift.Proofs
