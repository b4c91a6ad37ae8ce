import LuaLift.Flow.Values
import LuaLift.Proofs.Conditions

/-! # Expressions that are assigned

The blocks of an assigned expression made of `and` and `or` each test a variable or a
comparison, or assign a constant and go to the end (`Choice`). Following them leaves a value in
the variable (`FinalValue`). The expression that is recovered from the blocks has that value, where
the constants on the way are not taken for something else: the number zero counts as false
there, and a constant counts as true where it stands beside a block that also leads to the end. -/
namespace LuaLift.Proofs
open Tree Flow Relation

section
variable {V : Type} [LinearOrder V]

/-- Values of which `nil` and `false` count as false, and no other constants. -/
structure Conventional (v : Valuation V) : Prop where
  constant : ∀ k l, v.isTrue (v.ofConstant k l) = true
  yes : v.ofPrimitive .true = v.ofBool true
  no : v.ofPrimitive .false = v.ofBool false
  nil : v.isTrue (v.ofPrimitive .nil) = false

/-- The value that the variable has at the end of an expression, seen from block `i`. A test of
a variable that leads to the end leaves the value of that variable. -/
inductive FinalValue (s : Store) (v : Valuation V) (stop : NodeId) : NodeId → V → Prop
  | assigned {i e x} : Assigns s i e stop → Denotes s v e x → FinalValue s v stop i x
  | plain {i c n slot y} : HasExit s i (.test c n stop slot) → s.node c = .identifier y →
      v.isTrue (v.ofVariable y) = false → FinalValue s v stop i (v.ofVariable y)
  | not {i c n slot a y} : HasExit s i (.test c n stop slot) → s.node c = .unary .not a →
      s.node a = .identifier y → v.isTrue (v.ofVariable y) = true → FinalValue s v stop i (v.ofVariable y)
  | tested {i c n f slot q x} : HasExit s i (.test c n f slot) → Denotes s v c q →
      (if v.isTrue q then n else f) ≠ stop → FinalValue s v stop (if v.isTrue q then n else f) x →
      FinalValue s v stop i x

end

/-- The blocks of an assigned expression. A block before the last one tests something or assigns
a constant of known truth. It leads to a later block or out of the expression: tests of
variables and constants to the end, comparisons to the blocks that assign true and false. -/
structure Choice (s : Store) (body : List NodeId) (top : Terminators) : Prop where
  missing : s.node .absent = .absent
  stopBlock : IsBlock s top.stop
  terminators : top.yes = .absent ∧ top.no = .absent ∨ ∃ a b,
    Assigns s top.yes a top.stop ∧ s.node a = .primitive .true ∧
    Assigns s top.no b top.stop ∧ s.node b = .primitive .false
  apart : top.yes ≠ top.stop ∧ top.no ≠ top.stop
  outside : ∀ f, top.contains f = true → f ∉ body
  ordered : body.Pairwise fun i j => blockIndex s i < blockIndex s j
  rung : ∀ k i n, body[k]? = some i → body[k + 1]? = some n → ∃ f, Rung s top.stop i n f ∧ IsBlock s f ∧
    ((∃ j, k < j ∧ body[j]? = some f) ∨ ∃ b, Decides s top i f b)
  last : ∀ i, body.getLast? = some i → (∃ e, Assigns s i e top.stop ∧ IsOperand (s.node e)) ∨
    ∃ c slot op l r, HasExit s i (.test c top.no top.yes slot) ∧ IsTest s c ∧ s.node c = .binary op l r ∧
      IsBlock s top.yes
  /-- what follows a constant is led to from before it -/
  passedOver : ∀ k i e j n, body[k]? = some i → Assigns s i e j → body[k + 1]? = some n →
    ∃ q x, q < k ∧ body[q]? = some x ∧ FailsTo s x n
  /-- the blocks that a test leads past go to the end on one truth -/
  oneTruth : ∀ {a b p q : Nat} {x y z u k k'}, body[a]? = some x → body[b]? = some y → FailsTo s x y →
    a < p → p < b → body[p]? = some z → Decides s top z top.stop k →
    a < q → q < b → body[q]? = some u → Decides s top u top.stop k' → k = k'
  /-- a constant and the block beside it go to the end on one truth -/
  beside : ∀ {p : Nat} {x y e j k k'}, body[p]? = some x → body[p + 1]? = some y → p + 2 < body.length →
    Assigns s x e j ∨ Assigns s y e j → Decides s top x top.stop k → Decides s top y top.stop k' → k = k'

section
variable {V : Type} [LinearOrder V] {s : Store} {v : Valuation V} {body : List NodeId}
  {t top : Terminators} {w w' : Work Unit}

variable {k k' : Bool} {e : NodeId} {z : V}

theorem Conventional.isTrue_of_truth (hv : Conventional v) (h : truth? (s.node e) = some k)
    (hz : Denotes s v e z) : v.isTrue z = k := by
  rcases truth?_eq_some h with ⟨_, _, hn, -, rfl⟩ | ⟨p, hn, rfl, hp⟩
  · rw [hz.det (.constant hn), hv.constant]
  · rw [hz.det (.primitive hn)]
    rcases hp with rfl | rfl | rfl
    · rw [hv.yes, v.isTrue_ofBool]; rfl
    · exact hv.nil
    · rw [hv.no, v.isTrue_ofBool]; rfl

variable {f i n : NodeId}

theorem Decides.leads (h : Decides s top i f k) : FailsTo s i f ∧ top.contains f = true := by
  cases h with
  | plain hx | not hx | yes hx | no hx => exact ⟨.test hx, by simp [Terminators.contains]⟩
  | constant hx => exact ⟨hx.leads, by simp [Terminators.contains]⟩

theorem Choice.yes_ne_no (h : Choice s body top) (hyes : IsBlock s top.yes) : top.yes ≠ top.no := by
  intro he
  rcases h.terminators with ⟨habsent, -⟩ | ⟨a, b, ha, ha', hb, hb'⟩
  · exact hyes.ne_absent h.missing habsent
  · rw [he] at ha
    rw [ha.det hb, hb'] at ha'
    cases ha'

theorem Choice.side (h : Choice s body top) (hf : IsBlock s f) (hd : Decides s top i f k)
    (hs : Side s top i k') : k' = k := by
  obtain ⟨hyes, hno⟩ := h.apart
  cases hs with
  | constant hgive ht => exact hd.truth hgive ht
  | @test c n g slot hx =>
    cases hd with
    | constant hgive => exact absurd hgive hx.not_assigns
    | plain hx' hc => cases hx.det hx'; simp [inverted, hyes.symm, hc]
    | not hx' hc => cases hx.det hx'; simp [inverted, hc]
    | yes hx' => cases hx.det hx'; simp [inverted]
    | no hx' hc =>
      cases hx.det hx'
      have hne : top.no ≠ top.yes := fun he => h.yes_ne_no (he ▸ hf) he.symm
      simp [inverted, hne, hno]

theorem Decides.side (h : Decides s top i f k) : ∃ k', Side s top i k' := by
  cases h with
  | plain hx | not hx | yes hx | no hx => exact ⟨_, .test hx⟩
  | constant hx ht => exact ⟨_, .constant hx ht⟩

/-- Comparisons lead to the block that assigns their truth. -/
theorem Decides.terminator (h : Decides s top i f k) (hf : f ≠ top.stop) :
    f = if k then top.yes else top.no := by
  cases h with
  | plain | not | constant => exact absurd rfl hf
  | yes | no => rfl

theorem Choice.isBlock (h : Choice s body top) (hi : i ∈ body) : IsBlock s i := by
  obtain ⟨k, hk⟩ := List.getElem?_of_mem hi
  have hlen : k < body.length := (List.getElem?_eq_some_iff.mp hk).1
  by_cases hnext : k + 1 < body.length
  · obtain ⟨f, hr, -⟩ := h.rung k i _ hk (List.getElem?_eq_getElem hnext)
    cases hr.leads with
    | test hx | jump hx => exact hx.isBlock
  · have hlast : body.getLast? = some i := by
      rw [List.getLast?_eq_getElem?, ← hk]
      congr 1
      omega
    rcases h.last i hlast with ⟨e, hgive, -⟩ | ⟨_, _, _, _, _, hx, -⟩
    · obtain ⟨_, _, hx⟩ := hgive.exits
      exact hx.isBlock
    · exact hx.isBlock

theorem Choice.decides {k : Nat} (h : Choice s body top) (hi : body[k]? = some i)
    (hn : body[k + 1]? = some n) (hlead : FailsTo s i f) (hf : top.contains f = true) :
    IsBlock s f ∧ ∃ b, Decides s top i f b := by
  obtain ⟨f', hr, hblock, hto⟩ := h.rung k i n hi hn
  obtain rfl := hlead.det hr.leads
  rcases hto with ⟨j, -, hj⟩ | hd
  · exact absurd (List.mem_of_getElem? hj) (h.outside f hf)
  · exact ⟨hblock, hd⟩

theorem Choice.run {i m p : Nat} {x y : NodeId} (h : Choice s body top)
    (hrun : BlockRun s body top top.stop i m) (hm : m + 1 < body.length) (hip : i ≤ p) (hpm : p ≤ m)
    (hx : body[p]? = some x) (hk : Decides s top x top.stop k) (hy : body[m]? = some y)
    (hk' : Decides s top y top.stop k') : k = k' := by
  induction hd : m - p generalizing p x k with
  | zero =>
    obtain rfl : p = m := by omega
    rw [hx] at hy; cases hy
    obtain ⟨k0, hside⟩ := hk.side
    rw [← h.side h.stopBlock hk hside, h.side h.stopBlock hk' hside]
  | succ d ih =>
    have hz := List.getElem?_eq_getElem (l := body) (i := p + 1) (by omega)
    have hz' := List.getElem?_eq_getElem (l := body) (i := p + 1 + 1) (by omega)
    obtain ⟨-, k0, hk0⟩ := h.decides hz hz' (hrun.leads _ _ (by omega) (by omega) hz)
      (by simp [Terminators.contains])
    rw [← ih (by omega) (by omega) hz hk0 (by omega)]
    obtain ⟨_, hr, -⟩ := h.rung p x _ hx hz
    obtain ⟨_, hr', -⟩ := h.rung (p + 1) _ _ hz hz'
    cases hr with
    | constant hgive => exact h.beside hx hz (by omega) (.inl hgive) hk hk0
    | test hexit => cases hr' with
      | constant hgive => exact h.beside hx hz (by omega) (.inr hgive) hk hk0
      | test hexit' =>
        rw [← h.side h.stopBlock hk (.test hexit), ← h.side h.stopBlock hk0 (.test hexit'),
          hrun.alike p x _ _ _ hip (by omega) hx hz hexit hexit']

/-- The blocks of an operand that lead to the same terminator do so on one truth. -/
theorem Choice.alike {a b p : Nat} {x y z : NodeId} (h : Choice s body top)
    (hc : Cut s body top a b y z f) (hk : Decides s top z f k) (hp : a ≤ p) (hpb : p < b)
    (hx : body[p]? = some x) (hk' : Decides s top x f k') : k' = k := by
  have hlen : b < body.length := (List.getElem?_eq_some_iff.mp hc.next).1
  obtain ⟨hf, -⟩ := h.decides hc.last (by rw [Nat.sub_add_cancel (by omega), hc.next]) hc.leads hc.ends
  have hlead := hk'.leads.1
  by_cases hstop : f = top.stop
  · subst hstop
    -- an operand that a test leads past, or blocks passed before a run
    rcases hc.formed with ⟨u, hu, hpast⟩ | ⟨i, hai, hib, hpassed, hrun⟩
    · have hfirst : ∀ {q z'}, a ≤ q → body[q]? = some z' → FailsTo s z' top.stop → a < q := by
        intro q z' hq hz' hlead'
        refine Nat.lt_of_le_of_ne hq ?_
        rintro rfl
        rw [hu] at hz'; cases hz'
        exact h.outside _ hc.ends (hpast.det hlead' ▸ List.mem_of_getElem? hc.next)
      exact h.oneTruth hu hc.next hpast (hfirst hp hx hlead) hpb hx hk'
        (hfirst (by omega) hc.last hc.leads) (by omega) hc.last hk
    · have hip : i ≤ p := by
        by_contra hpi
        obtain ⟨j, -, hj⟩ := hpassed p x _ hp (by omega) hx hlead
        exact h.outside _ hc.ends (List.mem_of_getElem? hj)
      exact h.run hrun (by omega) hip (by omega) hx hk' hc.last hk
  · have hz := hk.terminator hstop
    have hx := hk'.terminator hstop
    have hboth : f = top.yes → f = top.no → False := fun hy hn =>
      h.yes_ne_no (hy ▸ hf) (hy.symm.trans hn)
    cases k <;> cases k'
    · rfl
    · exact (hboth hx hz).elim
    · exact (hboth hz hx).elim
    · rfl

theorem Choice.span (h : Choice s body top) : Span s top body top := by
  have hin : ∀ {i}, i ∈ body → top.contains i = false := fun hi => by
    rw [← Bool.not_eq_true]
    exact fun hc => h.outside _ hc hi
  refine ⟨h.missing, ?_, .inl h.stopBlock, h.outside, fun i hi => ⟨h.isBlock hi, hin hi⟩, h.ordered, ?_,
    h.passedOver, ?_⟩
  · rcases h.terminators with habsent | ⟨a, b, ha, -, hb, -⟩
    · exact .inr habsent
    · obtain ⟨_, _, hx⟩ := ha.exits
      obtain ⟨_, _, hy⟩ := hb.exits
      exact .inl ⟨hx.isBlock, hy.isBlock⟩
  · intro k i n hi hn
    obtain ⟨f, hr, hf, hto⟩ := h.rung k i n hi hn
    exact ⟨f, hr, hf, hto.imp_right fun ⟨b, hd⟩ => ⟨f, hd.leads.2, hf, Int.le_refl _⟩⟩
  · intro a b y z f k hc hside
    have hlen : b < body.length := (List.getElem?_eq_some_iff.mp hc.next).1
    have hlt := hc.lt
    obtain ⟨hf, k0, hk0⟩ :=
      h.decides hc.last (by rw [Nat.sub_add_cancel (by omega), hc.next]) hc.leads hc.ends
    obtain rfl := h.side hf hk0 hside
    refine ⟨fun he => absurd he (h.stopBlock.ne_absent h.missing), fun p x hp hpb hx hlead _ => ?_⟩
    obtain ⟨-, k', hk'⟩ := h.decides hx (List.getElem?_eq_getElem (by omega)) hlead hc.ends
    rwa [h.alike hc hk0 hp hpb hx hk'] at hk'

/-! ## The value of the expression -/

theorem Choice.terminator_final {b : Bool} (h : Choice s body top) (hv : Conventional v)
    (hblock : IsBlock s (if b then top.yes else top.no)) :
    (if b then top.yes else top.no) ≠ top.stop ∧
      FinalValue s v top.stop (if b then top.yes else top.no) (v.ofBool b) := by
  rcases h.terminators with ⟨hyes, hno⟩ | ⟨x, y, hx, hx', hy, hy'⟩
  · rw [hyes, hno, ite_self] at hblock
    exact absurd rfl (hblock.ne_absent h.missing)
  · cases b
    · exact ⟨h.apart.2, hv.no ▸ .assigned hy (.primitive hy')⟩
    · exact ⟨h.apart.1, hv.yes ▸ .assigned hx (.primitive hx')⟩

variable {op : BinaryOp} {c l r : NodeId} {slot : Option Int}

theorem Operand.ofBool (h : Operand s v i k z) (hx : HasExit s i (.test c n f slot))
    (hc : IsTest s c) (hn : s.node c = .binary op l r) : z = v.ofBool (v.isTrue z) := by
  have hvalue : ∀ {z}, Denotes s v c z → z = v.ofBool (v.isTrue z) := by
    intro z hz
    obtain ⟨b, rfl⟩ : ∃ b, z = v.ofBool b := by
      cases hc with
      | plain hn' | not hn' => rw [hn] at hn'; cases hn'
      | compare hn' hop hl hr =>
        obtain ⟨g, hg⟩ := comparison_of_isComparison (V := V) hop
        obtain ⟨x, hx⟩ := hl.denotes (v := v)
        obtain ⟨y, hy⟩ := hr.denotes (v := v)
        exact ⟨_, hz.det (.compare hn' hg hx hy)⟩
    rw [v.isTrue_ofBool]
  cases h with
  | value hgive => exact absurd hgive hx.not_assigns
  | test hx' hz =>
    cases hx.det hx'
    exact hvalue hz
  | opposite hx' hz =>
    cases hx.det hx'
    cases hz with
    | not hn' => rw [hn] at hn'; cases hn'
    | other => rw [v.isTrue_ofBool]

section
variable (h : Choice s body top) (hv : Conventional v)
include h hv

/-- A comparison that leads to the blocks that assign true and false leaves its truth. -/
theorem Choice.final_compare
    (hx : HasExit s i (.test c n f slot)) (hc : IsTest s c) (hn : s.node c = .binary op l r)
    (hop : Operand s v i k z)
    (hto : (if v.isTrue z = k then f else n) = if v.isTrue z then top.yes else top.no)
    (hblock : IsBlock s (if v.isTrue z then top.yes else top.no)) : FinalValue s v top.stop i z := by
  obtain ⟨q, hq⟩ := hc.denotes (v := v)
  have hgo : (if v.isTrue q then n else f) = if v.isTrue z then top.yes else top.no := by
    rw [← hto, hop.isTrue hx hq]
    cases k <;> cases v.isTrue q <;> rfl
  obtain ⟨hne, hfinal⟩ := h.terminator_final hv hblock
  rw [← hgo] at hne hfinal
  rw [hop.ofBool hx hc hn]
  exact .tested hx hq hne hfinal

theorem Choice.final_decided
    (hx : HasExit s i (.test c n f slot)) (hc : IsTest s c) (hf : IsBlock s f) (hd : Decides s top i f k)
    (hop : Operand s v i k z) (hk : v.isTrue z = k) : FinalValue s v top.stop i z := by
  have hcompare : ∀ {op l r}, s.node c = .binary op l r → f = (if k then top.yes else top.no) →
      FinalValue s v top.stop i z := fun hn hf' =>
    h.final_compare hv hx hc hn hop (by rw [if_pos hk, hk, hf']) (by rw [hk, ← hf']; exact hf)
  cases hd with
  | constant hgive => exact absurd hgive hx.not_assigns
  | yes hx' hn => cases hx.det hx'; exact hcompare hn rfl
  | no hx' hn => cases hx.det hx'; exact hcompare hn rfl
  | plain hx' hn =>
    cases hx.det hx'
    cases hop with
    | value hgive => exact absurd hgive hx.not_assigns
    | test hx'' hz =>
      cases hx.det hx''
      rw [hz.det (.identifier hn)] at hk ⊢
      exact .plain hx hn hk
  | not hx' hn =>
    cases hx.det hx'
    cases hop with
    | value hgive => exact absurd hgive hx.not_assigns
    | opposite hx'' hz =>
      cases hx.det hx''
      cases hz with
      | other hne => exact absurd hn (hne _)
      | not ha hz =>
        rw [hn] at ha; cases ha
        cases hc with
        | compare hc' | plain hc' => rw [hn] at hc'; cases hc'
        | not hc' ha =>
          rw [hn] at hc'; cases hc'
          rw [hz.det (.identifier ha)] at hk ⊢
          exact .not hx hn ha hk

theorem Choice.final_step {j : NodeId} {u : V} (hstep : BlockStep s v top body.dropLast (i, u) (j, z)) :
    (top.contains j = true → FinalValue s v top.stop i z) ∧
      ∀ x, top.contains j = false → FinalValue s v top.stop j x → FinalValue s v top.stop i x := by
  obtain ⟨hmem, n, f, k, hr, hsuits, hop, hto⟩ := hstep
  dsimp only at hmem hr hsuits hop hto
  obtain ⟨m, hm⟩ := List.getElem?_of_mem hmem
  rw [List.getElem?_dropLast] at hm
  split at hm <;> [skip; cases hm]
  have hnext := List.getElem?_eq_getElem (l := body) (i := m + 1) (by omega)
  obtain ⟨f', hr', hf, -⟩ := h.rung m i _ hm hnext
  obtain rfl := hr'.leads.det hr.leads
  cases hr with
  | constant hgive htruth =>
    have hstop : top.contains top.stop = true := by simp [Terminators.contains]
    obtain rfl := (hsuits hstop).truth hgive htruth
    cases hop with
    | test hx | opposite hx => exact absurd hgive hx.not_assigns
    | value hgive' hz =>
      have he := hgive.det hgive'
      subst he
      rw [if_pos (hv.isTrue_of_truth htruth hz)] at hto
      rw [hto]
      exact ⟨fun _ => .assigned hgive hz, fun x hfin => absurd hstop (by simp [hfin])⟩
  | @test c _ slot hx hc =>
    have hn : n ∈ body := by
      cases hr' with
      | constant hgive => exact absurd hgive hx.not_assigns
      | test hx' => cases hx.det hx'; exact List.mem_of_getElem? hnext
    obtain ⟨y, hy⟩ := hc.denotes (v := v)
    constructor
    · intro hfin
      have hk : v.isTrue z = k := by
        by_contra hk
        rw [hto, if_neg hk] at hfin
        exact h.outside n hfin hn
      rw [hto, if_pos hk] at hfin
      exact h.final_decided hv hx hc hf (hsuits hfin) hop hk
    · intro x hfin hfinal
      have hgo : j = if v.isTrue y then n else f' := by
        rw [hto, hop.isTrue hx hy]
        cases k <;> cases v.isTrue y <;> rfl
      rw [hgo] at hfin hfinal
      refine .tested hx hy (fun he => ?_) hfinal
      simp [he, Terminators.contains] at hfin

theorem Choice.final_steps {p q : NodeId × V} {x : V}
    (hsteps : ReflTransGen (BlockStep s v top body.dropLast) p q) (hq : q.1 ∈ body)
    (hx : FinalValue s v top.stop q.1 x) : FinalValue s v top.stop p.1 x := by
  induction hsteps using ReflTransGen.head_induction_on with
  | refl => exact hx
  | @head a b hstep hrest ih =>
    have hb : b.1 ∈ body := by
      rcases hrest.cases_head with rfl | ⟨c, hnext, -⟩
      · exact hq
      · exact (List.dropLast_sublist body).subset hnext.1
    exact (h.final_step hv hstep).2 x (h.span.within _ hb).2 ih

end

/-- The expression that is recovered from the blocks has the value that they leave. -/
theorem Choice.compile {start : NodeId} (h : Choice w.store body top) (hv : Conventional v)
    (hstart : body[0]? = some start) (hrun : Returns (Flow.compile body top) w e w') :
    Grows w.store w'.store ∧ ∃ x, Denotes w'.store v e x ∧ FinalValue w.store v top.stop start x := by
  obtain ⟨r, w1, hr, hcompile⟩ := returns_compile (V := V) hrun
  obtain ⟨last, hlast⟩ : ∃ last, body.getLast? = some last := by
    rw [List.getLast?_eq_getElem?]
    exact ⟨_, List.getElem?_eq_getElem (by have := (List.getElem?_eq_some_iff.mp hstart).1; omega)⟩
  obtain ⟨w2, hg2, hlastop, -, hset⟩ := returns_terms (sound_terms (V := V) body.length) h.span
    hstart hlast (.refl _) hr
  have hvalue : Grows w2.store w1.store ∧ ∃ z, Denotes w1.store v r.2 z ∧
      FinalValue w.store v top.stop last z := by
    rcases h.last last hlast with ⟨e, hgive, hoperand⟩ | ⟨c, slot, op, l, m, hx, hc, hn, hyes⟩
    · obtain ⟨rfl, rfl⟩ := returns_lastOperand_value hgive hg2 hlastop
      obtain ⟨z, hz⟩ := hoperand.denotes (v := v)
      exact ⟨.refl _, z, hz.grows hg2, .assigned hgive hz⟩
    · obtain ⟨hg, hz⟩ := returns_lastOperand (V := V) h.missing hx hc hg2 hlastop
      obtain ⟨z, hz, hop⟩ := hz v
      refine ⟨hg, z, hz, h.final_compare hv hx hc hn hop ?_ ?_⟩
      · simp [inverted]
      · rcases h.span.terminators with ⟨hy, hn⟩ | ⟨habsent, -⟩
        · split <;> assumption
        · exact absurd habsent (hyes.ne_absent h.missing)
  obtain ⟨hg, z, hz, hfinal⟩ := hvalue
  rcases (hset v).grows hg with ⟨hpass, hlead⟩ | ⟨f, x, hf, -, hx, hend⟩
  · obtain ⟨hg', he⟩ := hcompile hz (hpass z)
    obtain ⟨u, hsteps⟩ := hlead z
    exact ⟨(hg2.trans hg).trans hg', z, he, h.final_steps hv hsteps (List.mem_of_getLast? hlast) hfinal⟩
  · obtain ⟨hg', he⟩ := hcompile hz (hx z)
    obtain ⟨q, hsteps, hstep⟩ := TransGen.tail'_iff.mp (hend z)
    exact ⟨(hg2.trans hg).trans hg', x, he, h.final_steps hv hsteps
      ((List.dropLast_sublist body).subset hstep.1) ((h.final_step hv hstep).1 hf)⟩

/-! ## The assignment -/

theorem node_setBlock {j : NodeId} {b : Block} {m n : Node} (hi : s.node i = .block b) (hj : s.node j = n)
    (hn : ∀ b, n ≠ .block b) : (s.setNode i m).node j = n := by
  rw [node_setNode_of_ne, hj]
  rintro rfl
  exact hn b (hj.symm.trans hi)

theorem Denotes.setBlock {b : Block} {m : Node} {x : V} (hi : s.node i = .block b) (h : Denotes s v e x) :
    Denotes (s.setNode i m) v e x := by
  induction h with
  | identifier hn => exact .identifier (node_setBlock hi hn nofun)
  | constant hn => exact .constant (node_setBlock hi hn nofun)
  | primitive hn => exact .primitive (node_setBlock hi hn nofun)
  | not hn _ ih => exact .not (node_setBlock hi hn nofun) ih
  | compare hn hf _ _ ihl ihr => exact .compare (node_setBlock hi hn nofun) hf ihl ihr
  | first hn hb _ hx ih => exact .first (node_setBlock hi hn nofun) hb ih hx
  | second hn hb _ hx _ ihl ihr => exact .second (node_setBlock hi hn nofun) hb ihl hx ihr

theorem returns_assignedVariable {target : NodeId} (h : Returns (assignedVariable body) w target w') :
    w' = w := by
  obtain ⟨single, w1, h1, hrest⟩ := h.bind
  have hkept : w1 = w := by
    refine filterM_inv (fun i b v hb => ?_) h1
    obtain ⟨xs, w2, hx, hpure⟩ := hb.bind
    obtain ⟨-, rfl, -⟩ := items_inv hx
    exact hpure.pure.2.symm
  rw [hkept] at hrest
  split at hrest
  · exact hrest.throw.elim
  · obtain ⟨a, w3, h3, hlast⟩ := Returns.bind hrest
    obtain ⟨rfl, -⟩ := firstItem_inv h3
    replace hlast := Returns.atNode hlast
    split at hlast
    · exact (firstItem_inv hlast).1
    · exact hlast.throw.elim

/-- The assignment that is appended to the first block of an expression assigns the value that
the blocks leave in the variable. The blocks that assign true and false at the end, if there are
any, are the terminators `yes` and `no`. -/
theorem assigned_expression_keeps_value {start stop : NodeId} {operands : List NodeId}
    {found : Option (NodeId × NodeId)} {yes no : NodeId}
    (hsplit : Returns (splitTerminators body) w (found, operands) w)
    (hfound : found.getD (.absent, .absent) = (yes, no))
    (h : Choice w.store (start :: operands) ⟨stop, yes, no⟩)
    (hrun : Returns (assignExpression start stop body) w () w') (hv : Conventional v) :
    ∃ b a kind es ds e x, w'.store.node start = .block b ∧ b.contents.getLast? = some a ∧
      w'.store.node a = .assignment kind es ds ∧ w'.store.node es = .list .expressions [e] ∧
      Denotes w'.store v e x ∧ FinalValue w.store v stop start x := by
  obtain ⟨target, w1, h1, hsplits⟩ := hrun.bind
  rw [returns_assignedVariable h1] at hsplits
  obtain ⟨r, w2, h2, hcompiles⟩ := Returns.bind hsplits
  obtain ⟨rfl, rfl⟩ := hsplit.unique h2
  dsimp only at hcompiles
  rw [hfound] at hcompiles
  obtain ⟨e, w3, h3, hrun⟩ := Returns.bind hcompiles
  obtain ⟨hg3, x, hx, hfinal⟩ := h.compile hv rfl h3
  obtain ⟨destination, w4, h4, hrun⟩ := Returns.bind hrun
  have hg4 := (returns_copyDeep h4).1
  obtain ⟨es, w5, h5, hrun⟩ := Returns.bind hrun
  obtain ⟨hg5, hes⟩ := returns_add_grows h5
  obtain ⟨ds, w6, h6, hrun⟩ := Returns.bind hrun
  obtain ⟨hg6, -⟩ := returns_add_grows h6
  obtain ⟨a, w7, h7, hrun⟩ := Returns.bind hrun
  obtain ⟨hg7, ha⟩ := returns_add_grows h7
  obtain ⟨b, hb⟩ := h.isBlock (List.mem_cons_self)
  have hgrow := (((hg3.trans hg4).trans hg5).trans hg6).trans hg7
  have hb7 := hgrow.node_eq hb nofun
  obtain ⟨xs, w8, h8, hset⟩ := Returns.bind hrun
  obtain ⟨-, rfl, -⟩ := items_inv h8
  replace hset := Returns.atNode hset
  rw [hb7] at hset
  obtain rfl := returns_setNode hset
  refine ⟨_, a, _, es, ds, e, x, node_setNode_self (inside_of_node (by simp [hb7])),
    List.getLast?_concat, node_setBlock hb7 ha nofun,
    node_setBlock hb7 ((hg6.trans hg7).node_eq hes nofun) nofun, ?_, hfinal⟩
  exact ((((hx.grows hg4).grows hg5).grows hg6).grows hg7).setBlock hb7

end

/-- Numbers, of which the negative ones count as false. -/
def signedNumbers : Valuation Int where
  isTrue a := decide (0 ≤ a)
  ofBool b := if b then 1 else -1
  isTrue_ofBool := by decide
  ofVariable x := x.slot
  ofConstant _ _ := 9
  ofPrimitive
    | .true => 1
    | _ => -1

theorem signedNumbers_conventional : Conventional signedNumbers := ⟨fun _ _ => rfl, rfl, rfl, rfl⟩

/-- Block 11 tests slot 0 and leads to block 13 if it fails. Block 12 assigns the number `n` and
goes to the end, and block 13 assigns slot 1. -/
def numberOrSlot (n : Int) : Store where
  cells := ([.absent, .identifier { kind := .slot, slot := 0 }, .constant .integer (.number (.int n)),
    .identifier { kind := .slot, slot := 1 }, .test ⟨1⟩ ⟨12⟩ ⟨13⟩ none, .list .expressions [⟨2⟩],
    .list .targets [⟨1⟩], .assignment .normal ⟨5⟩ ⟨6⟩, .list .expressions [⟨3⟩],
    .assignment .normal ⟨8⟩ ⟨6⟩, .jump .jump ⟨14⟩ false, .block { index := 0, exit := ⟨4⟩ },
    .block { index := 1, exit := ⟨10⟩, contents := [⟨7⟩] },
    .block { index := 2, exit := ⟨10⟩, contents := [⟨9⟩] }, .block { index := 3 }].map
      ({ node := · })).toArray

theorem numberOrSlot_assigns (n : Int) : Assigns (numberOrSlot n) ⟨12⟩ ⟨2⟩ ⟨14⟩ :=
  ⟨_, _, _, _, _, _, _, _, _, rfl, rfl, rfl, rfl, rfl⟩

theorem numberOrSlot_choice : Choice (numberOrSlot 1) [⟨11⟩, ⟨12⟩, ⟨13⟩] ⟨⟨14⟩, .absent, .absent⟩ where
  missing := rfl
  stopBlock := ⟨_, rfl⟩
  terminators := .inl ⟨rfl, rfl⟩
  apart := ⟨nofun, nofun⟩
  outside f hf hmem := by
    revert hf
    simp only [List.mem_cons, List.not_mem_nil, or_false] at hmem
    rcases hmem with rfl | rfl | rfl <;> decide
  ordered := by decide
  rung
    | 0, _, _, rfl, rfl => ⟨⟨13⟩, .test ⟨_, rfl, rfl⟩ (.plain rfl), ⟨_, rfl⟩, .inl ⟨2, by decide, rfl⟩⟩
    | 1, _, _, rfl, rfl => ⟨⟨14⟩, .constant (numberOrSlot_assigns 1) rfl, ⟨_, rfl⟩,
        .inr ⟨true, .constant (numberOrSlot_assigns 1) rfl⟩⟩
    | 2, _, _, _, h => nomatch h
    | _ + 3, _, _, h, _ => nomatch h
  last
    | _, rfl => .inl ⟨⟨3⟩, ⟨_, _, _, _, _, _, _, _, _, rfl, rfl, rfl, rfl, rfl⟩, .inl ⟨_, rfl⟩⟩
  passedOver
    | 0, _, _, _, _, rfl, h, _ => absurd h (HasExit.not_assigns ⟨_, rfl, rfl⟩)
    | 1, _, _, _, _, _, _, rfl => ⟨0, _, by decide, rfl, .test ⟨_, rfl, rfl⟩⟩
    | 2, _, _, _, _, _, _, h => nomatch h
    | _ + 3, _, _, _, _, h, _, _ => nomatch h
  oneTruth {a b p q x y z u k k'} _ hb _ hap hpb hz hk haq hqb hu hk' := by
    have hlen : b < 3 := (List.getElem?_eq_some_iff.mp hb).1
    obtain rfl : p = 1 := by omega
    obtain rfl : q = 1 := by omega
    cases hz
    cases hu
    exact (hk.truth (numberOrSlot_assigns 1) rfl).symm.trans (hk'.truth (numberOrSlot_assigns 1) rfl)
  beside {p x y e j k k'} hx _ hp _ hk _ := by
    obtain rfl : p = 0 := by simp at hp; omega
    cases hx
    cases hk.leads.1.det (.test ⟨_, rfl, rfl⟩)

theorem number_or_slot_kept : Choice (numberOrSlot 1) [⟨11⟩, ⟨12⟩, ⟨13⟩] ⟨⟨14⟩, .absent, .absent⟩ ∧
    ∃ w', Returns (assignExpression ⟨11⟩ ⟨14⟩ [⟨12⟩, ⟨13⟩]) ⟨numberOrSlot 1, ()⟩ () w' ∧
      ∃ b a kind es ds e x, w'.store.node ⟨11⟩ = .block b ∧ b.contents.getLast? = some a ∧
        w'.store.node a = .assignment kind es ds ∧ w'.store.node es = .list .expressions [e] ∧
        Denotes w'.store signedNumbers e x ∧ FinalValue (numberOrSlot 1) signedNumbers ⟨14⟩ ⟨11⟩ x :=
  ⟨numberOrSlot_choice, _, rfl, assigned_expression_keeps_value
    (show Returns (splitTerminators [⟨12⟩, ⟨13⟩]) ⟨numberOrSlot 1, ()⟩ (none, [⟨12⟩, ⟨13⟩]) _ from rfl) rfl
    numberOrSlot_choice rfl signedNumbers_conventional⟩

/-- The number zero counts as false after the test: slot 0 is true, which leaves the number in
the variable, but the expression has the value of slot 1. -/
theorem zero_or_slot_changed :
    ∃ w' a es ds e, Returns (assignExpression ⟨11⟩ ⟨14⟩ [⟨12⟩, ⟨13⟩]) ⟨numberOrSlot 0, ()⟩ () w' ∧
      w'.store.node ⟨11⟩ = .block { index := 0, exit := ⟨4⟩, contents := [a] } ∧
      w'.store.node a = .assignment (.other (-1)) es ds ∧ w'.store.node es = .list .expressions [e] ∧
      Denotes w'.store signedNumbers e 1 ∧ FinalValue (numberOrSlot 0) signedNumbers ⟨14⟩ ⟨11⟩ 9 := by
  refine ⟨_, ⟨21⟩, ⟨19⟩, ⟨20⟩, ⟨17⟩, rfl, rfl, rfl, rfl, ?_, ?_⟩
  · refine .second (l := ⟨16⟩) (r := ⟨3⟩) (x := 9) rfl rfl ?_ nofun
      (.identifier (x := { kind := .slot, slot := 1 }) rfl)
    exact .second (l := ⟨15⟩) (r := ⟨2⟩) rfl rfl (.not (a := ⟨1⟩) rfl
      (.identifier (x := { kind := .slot, slot := 0 }) rfl)) nofun (.constant rfl)
  · exact .tested (q := (0 : Int)) (n := ⟨12⟩) (f := ⟨13⟩) ⟨_, rfl, rfl⟩
      (.identifier (x := { kind := .slot, slot := 0 }) rfl) nofun
      (.assigned (numberOrSlot_assigns 0) (.constant rfl))

end LuaLift.Proofs
