import Mathlib.Data.Int.Order.Basic
import LuaLift.Proofs.Operands

/-! # Soundness of condition recovery

The blocks of an operand lead to its `yes` exactly when its value is true. The loop over the
blocks keeps: the operands found so far decide the value and lead to a terminator, or the
blocks lead on after them. Of a whole condition the last test alone may lead to `yes` both
ways, and there the expression is wrong exactly when that test is reached and holds. -/
namespace LuaLift.Proofs
open Tree Flow Relation

section
variable {V : Type} [LinearOrder V] {s : Store} {body : List NodeId} {t top : Terminators}
  {w w' : Work Unit}

/-- What the operands before the last one settle from block `x` on: the blocks lead to the last
one, whose value is the value of all, or to a terminator with the value of all. -/
def Settles (s s' : Store) (v : Valuation V) (top : Terminators) (blocks : List NodeId) (t : Terminators)
    (links : List (Flow.Term × BinaryOp)) (x last : NodeId) : Prop :=
  ((∀ z, LinksDenote s' v links z z) ∧
    ∀ u, ∃ u', ReflTransGen (BlockStep s v top blocks) (x, u) (last, u')) ∨
  ∃ f r, t.contains f = true ∧ (t.stop = .absent → f = if v.isTrue r then t.yes else t.no) ∧
    (∀ z, LinksDenote s' v links z r) ∧ ∀ u, TransGen (BlockStep s v top blocks) (x, u) (f, r)

variable {blocks : List NodeId} {x : NodeId} {s' : Store} {v : Valuation V}

theorem Settles.links {links : List (Flow.Term × BinaryOp)} {last : NodeId}
    (h : Settles s s' v top blocks t links x last) (z : V) : ∃ r, LinksDenote s' v links z r := by
  rcases h with ⟨h, -⟩ | ⟨f, r, -, -, h, -⟩
  · exact ⟨z, h z⟩
  · exact ⟨r, h z⟩

theorem Passed.leads (hs : Span s top body t) {last : NodeId} (hlast : body.getLast? = some last) {a : Nat}
    (hp : Passed s body a (body.length - 1)) :
    ∀ {m k : Nat} {x : NodeId}, body.length - k = m → a ≤ k → body[k]? = some x → ∀ u,
      ∃ u', ReflTransGen (BlockStep s v top body.dropLast) (x, u) (last, u') := by
  intro m
  induction m using Nat.strongRecOn with
  | ind m ih =>
    intro k x hm hak hx u
    have hlen : k < body.length := (List.getElem?_eq_some_iff.mp hx).1
    by_cases hk : k + 1 < body.length
    · have hn := List.getElem?_eq_getElem hk
      obtain ⟨f, hr, -, -⟩ := hs.rung k x _ hx hn
      obtain ⟨j, hkj, hj⟩ := hp k x f hak (by omega) hx hr.leads
      have hbody := List.mem_of_getElem? hj
      have hsuits : Suits s top x f false := fun hfin => by
        rw [(hs.within f hbody).2] at hfin; cases hfin
      cases hr with
      | constant hgive =>
        exact absurd hbody fun hmem => by simpa [Terminators.contains] using (hs.within _ hmem).2
      | test hexit htest =>
        obtain ⟨q, hq⟩ := htest.denotes (v := v)
        have hstep : ∀ {y}, y = (if v.isTrue q = false then f else body[k + 1]) →
            BlockStep s v top body.dropLast (x, u) (y, q) := fun hy =>
          ⟨mem_dropLast_of_getElem? hx hk, _, f, false, .test hexit htest, hsuits, .test hexit hq, hy⟩
        by_cases hfalse : v.isTrue q = false
        · obtain ⟨u', h⟩ := ih (body.length - j) (by omega) rfl (by omega) hj q
          exact ⟨u', .head (hstep (if_pos hfalse).symm) h⟩
        · obtain ⟨u', h⟩ := ih (body.length - (k + 1)) (by omega) rfl (by omega) hn q
          exact ⟨u', .head (hstep (if_neg hfalse).symm) h⟩
    · obtain rfl : k = body.length - 1 := by omega
      rw [List.getLast?_eq_getElem?, hx] at hlast; cases hlast
      exact ⟨u, .refl⟩

theorem Settles.cons {links : List (Flow.Term × BinaryOp)} {term : Flow.Term} {y last f : NodeId} {k : Bool}
    {a : V} (hf : t.contains f = true) (hk : t.stop = .absent → f = if k then t.yes else t.no)
    (ha : TermDenotes s' v term a)
    (hsteps : ∀ u, TransGen (BlockStep s v top blocks) (x, u) (if v.isTrue a = k then f else y, a))
    (h : Settles s s' v top blocks t links y last) :
    Settles s s' v top blocks t ((term, if k then .or else .and) :: links) x last := by
  have hstop : stopsOn (if k then .or else .and) = some k := by cases k <;> rfl
  have link : ∀ {z r}, LinksDenote s' v links z r →
    LinksDenote s' v ((term, if k then .or else .and) :: links) z
      (if v.isTrue a = k then a else r) := LinksDenote.cons hstop ha
  by_cases hdecides : v.isTrue a = k
  · refine .inr ⟨f, a, hf, fun he => by rw [hdecides]; exact hk he, fun z => ?_, fun u => ?_⟩
    · obtain ⟨r, hr⟩ := h.links z
      have := link hr
      rwa [if_pos hdecides] at this
    · have := hsteps u
      rwa [if_pos hdecides] at this
  · simp only [if_neg hdecides] at hsteps link
    rcases h with ⟨hpass, hlast⟩ | ⟨g, r, hg, hside, hr, hend⟩
    · refine .inl ⟨fun z => link (hpass z), fun u => ?_⟩
      obtain ⟨u', h⟩ := hlast a
      exact ⟨u', (hsteps u).to_reflTransGen.trans h⟩
    · exact .inr ⟨g, r, hg, hside, fun z => link (hr z), fun u => (hsteps u).trans (hend a)⟩

/-- The operands before the last one, from position `i` on. Blocks from `start` up to `i`
have been passed, and the fuel suffices for the blocks that are left. -/
theorem returns_termsFrom {inner : List NodeId → Terminators → Edit Terms} {last : NodeId} {limit : Int}
    (hi : Sound V s top inner) (hs : Span s top body t) (hlast : body.getLast? = some last)
    (hlimit : ∀ g, t.contains g = true → IsBlock s g → limit ≤ blockIndex s g) :
    ∀ {fuel i start : Nat} {x : NodeId} {w w' : Work Unit} {links : List (Flow.Term × BinaryOp)},
      Grows s w.store → start ≤ i → i < body.length → body.length ≤ fuel + i →
      Passed s body start i → Sealed s body start → body[start]? = some x →
      Returns (termsFrom inner body t limit fuel i start) w links w' →
      Grows w.store w'.store ∧
        (∀ q i g, start ≤ q → q + 1 < body.length → body[q]? = some i → FailsTo s i g →
          g ∈ body ∨ t.contains g = true) ∧
        ∀ v : Valuation V, Settles s w'.store v top body.dropLast t links x last
  | 0, i, start, x, w, w', links, hg, hsi, hil, hfuel, hp, hsealed, hx, h => by omega
  | fuel + 1, i, start, x, w, w', links, hg, hsi, hil, hfuel, hp, hsealed, hx, h => by
    unfold termsFrom at h
    split at h
    rotate_left
    · -- no block is left but the last one
      obtain ⟨rfl, rfl⟩ := h.pure
      obtain rfl : i = body.length - 1 := by omega
      refine ⟨.refl _, fun q i g hq hqb hi hlead => ?_, fun v =>
        .inl ⟨fun _ => .nil, hp.leads hs hlast rfl (Nat.le_refl _) hx⟩⟩
      obtain ⟨j, -, hj⟩ := hp q i g hq (by omega) hi hlead
      exact .inl (List.mem_of_getElem? hj)
    rename_i hlt
    obtain ⟨r, w1, hr, rest⟩ := h.bind
    obtain ⟨rfl, ⟨rfl, hp'⟩ | ⟨b, y, z, f, rfl, hib, hc⟩⟩ := returns_operandAt hs hg hlimit hlt hsi hp hr
    · exact returns_termsFrom hi hs hlast hlimit hg (by omega) hlt (by omega) hp' hsealed hx rest
    have hb : b < body.length := (List.getElem?_eq_some_iff.mp hc.next).1
    have hlastz : (between body start b).getLast? = some z := by
      rw [between_getLast? hc.lt (Nat.le_of_lt hb), hc.last]
    dsimp only at rest
    rw [hlastz] at rest
    obtain ⟨k, w2, hk, rest⟩ := Returns.bind rest
    obtain ⟨hkz, rfl⟩ := returns_positionOf hk
    obtain rfl : k = b - 1 := ordered_inj hs.ordered hkz hc.last
    have hsucc : b - 1 + 1 = b := by omega
    obtain ⟨y', w3, hy', rest⟩ := Returns.bind rest
    obtain ⟨hat, rfl⟩ := returns_atPosition hy'
    rw [show ((b - 1 : Nat) : Int) + 1 = (b : Nat) by omega, at?_ofNat, hc.next] at hat; cases hat
    obtain ⟨f', hrung, -, -⟩ := hs.rung (b - 1) z y hc.last (by rw [hsucc, hc.next])
    obtain ⟨op, w4, ho, rest⟩ := Returns.bind rest
    obtain ⟨rfl, k, hside, rfl⟩ := hrung.returns_operatorAfter hg ho
    obtain ⟨term, w5, hterm, rest⟩ := Returns.bind rest
    obtain ⟨hg1, hwithin, hterm'⟩ := returns_operandTerm hi hs hc hsealed hx hside hg hterm
    obtain ⟨links', w6, hrest, ret⟩ := Returns.bind rest
    obtain ⟨rfl, rfl⟩ := ret.pure
    rw [hsucc] at hrest
    have hout := hs.outside f hc.ends
    have hsealed' : Sealed s body b := by
      intro q i g j hq hi hlead hj
      rcases Nat.lt_or_ge q start with hqs | hqs
      · have := hsealed q i g j hqs hi hlead hj
        omega
      · rcases hwithin q i g hqs hq hi hlead with rfl | ⟨j', hj', hgj⟩
        · exact absurd (List.mem_of_getElem? hj) hout
        · rwa [ordered_inj hs.ordered hj hgj]
    obtain ⟨hg2, hcontained, hrest'⟩ := returns_termsFrom hi hs hlast hlimit (hg.trans hg1) (Nat.le_refl b) hb
      (by omega) (fun p _ _ hp1 hp2 => by omega) hsealed' hc.next hrest
    refine ⟨hg1.trans hg2, fun q i g hq hqb hi hlead => ?_, fun v => ?_⟩
    · rcases Nat.lt_or_ge q b with hqb' | hqb'
      · rcases hwithin q i g hq hqb' hi hlead with rfl | ⟨j, -, hj⟩
        · exact .inr hc.ends
        · exact .inl (List.mem_of_getElem? hj)
      · exact hcontained q i g hqb' hqb hi hlead
    · obtain ⟨a, ha, hsteps⟩ := hterm' v
      have hsub : ∀ u ∈ between body start b, u ∈ body.dropLast := by
        intro u hu
        obtain ⟨q, hq⟩ := List.getElem?_of_mem hu
        rw [between_getElem?] at hq
        split at hq
        · exact mem_dropLast_of_getElem? hq (by omega)
        · cases hq
      exact (hrest' v).cons hc.ends (hs.suits hc hside).1 (ha.grows hg2)
        fun u => step_mono hsub (hsteps u)

theorem denotes_of_truth {e : NodeId} {k : Bool} (h : truth? (s.node e) = some k) : ∃ z, Denotes s v e z := by
  rcases truth?_eq_some h with ⟨_, _, hn, -⟩ | ⟨_, hn, -⟩
  · exact ⟨_, .constant hn⟩
  · exact ⟨_, .primitive hn⟩

theorem returns_lastOperand {i c n f e : NodeId} {slot : Option Int} (hm : s.node .absent = .absent)
    (hx : HasExit s i (.test c n f slot)) (htest : IsTest s c) (hg : Grows s w.store)
    (h : Returns (lastOperand i t) w e w') :
    Grows w.store w'.store ∧ ∀ v : Valuation V, ∃ z, Denotes w'.store v e z ∧
      Operand s v i (inverted s t (.test c n f slot)) z := by
  obtain ⟨x, w1, he, rest⟩ := h.bind
  obtain ⟨rfl, rfl⟩ := returns_exitNode hx nofun hg he
  obtain ⟨k, w2, hk, rest⟩ := Returns.bind rest
  obtain ⟨rfl, rfl⟩ := returns_isInverted htest hg hk
  exact returns_inverted hm hx htest hg rest

theorem returns_lastOperand_value {i e j : NodeId} (hx : Assigns s i e j) (hg : Grows s w.store)
    (h : Returns (lastOperand i t) w x w') : x = e ∧ w = w' := by
  obtain ⟨m, w1, he, rest⟩ := h.bind
  obtain ⟨kind, closes, hj⟩ := hx.exits
  obtain ⟨rfl, rfl⟩ := returns_exitNode hj nofun hg he
  obtain ⟨r, w2, hr, rest⟩ := Returns.bind rest
  obtain ⟨rfl, rfl⟩ := returns_lastValue hx hg hr
  exact ⟨rest.pure.1.symm, rest.pure.2⟩

/-- A condition that is taken apart: the operands before the last one settle its value or leave
it to the last one. -/
theorem returns_terms {depth : Nat} {first last : NodeId} {r : Terms}
    (hi : Sound V s top (terms depth)) (hs : Span s top body t) (hfirst : body[0]? = some first)
    (hlast : body.getLast? = some last) (hg : Grows s w.store)
    (h : Returns (terms (depth + 1) body t) w r w') :
    ∃ w1, Grows w.store w1.store ∧ Returns (lastOperand last t) w1 r.2 w' ∧
      (∀ q i g, q + 1 < body.length → body[q]? = some i → FailsTo s i g →
        g ∈ body ∨ t.contains g = true) ∧
      ∀ v : Valuation V, Settles s w1.store v top body.dropLast t r.1 first last := by
  obtain ⟨limit, w1, hl, rest⟩ := h.bind
  obtain ⟨rfl, hlimit⟩ := returns_terminatorIndex hs hg hl
  obtain ⟨links, w2, hlinks, rest⟩ := Returns.bind rest
  have hlen : 0 < body.length := (List.getElem?_eq_some_iff.mp hfirst).1
  obtain ⟨hg1, hcontained, hset⟩ := returns_termsFrom hi hs hlast hlimit hg (Nat.le_refl 0) hlen (by omega)
    (fun p _ _ hp1 hp2 => by omega) (fun q _ _ _ hq => by omega) hfirst hlinks
  rw [hlast] at rest
  obtain ⟨e, w3, he, ret⟩ := Returns.bind rest
  obtain ⟨rfl, rfl⟩ := ret.pure
  exact ⟨w2, hg1, he, fun q => (hcontained q · · (Nat.zero_le q)), hset⟩

theorem Settles.grows {s'' : Store} {links : List (Flow.Term × BinaryOp)} {last : NodeId}
    (hg : Grows s' s'') (h : Settles s s' v top blocks t links x last) :
    Settles s s'' v top blocks t links x last := by
  rcases h with ⟨h, hlast⟩ | ⟨f, r, hf, hside, h, hend⟩
  · exact .inl ⟨fun z => (h z).grows hg, hlast⟩
  · exact .inr ⟨f, r, hf, hside, fun z => (h z).grows hg, hend⟩

theorem sound_terms : ∀ depth, Sound V s top (terms depth)
  | 0 => by
    intro body first last n f k w r w' _ _ _ _ _ _ _ h
    unfold terms at h
    exact h.throw.elim
  | depth + 1 => by
    intro body first last n f k w r w' hs hfirst hlast hr hsuits hne hg h
    obtain ⟨w1, hg1, hlastop, hcontained, hset⟩ := returns_terms (sound_terms depth) hs hfirst hlast hg h
    have hoperand : Grows w1.store w'.store ∧ ∀ v : Valuation V, ∃ z, Denotes w'.store v r.2 z ∧
        Operand s v last k z := by
      cases hr with
      | @test c _ slot hexit htest =>
        have hk : inverted s (sideTerminators k f n) (.test c n f slot) = k := by
          have hf : f ≠ .absent := by
            rintro rfl
            have hterminators := hs.terminators
            cases k <;> simp_all [sideTerminators, IsBlock, hs.missing]
          cases k <;> simp [sideTerminators, inverted, hne, hf]
        have := returns_lastOperand (V := V) hs.missing hexit htest (hg.trans hg1) hlastop
        rwa [hk] at this
      | constant hgive htruth =>
        obtain ⟨rfl, rfl⟩ := returns_lastOperand_value hgive (hg.trans hg1) hlastop
        refine ⟨.refl _, fun v => ?_⟩
        obtain ⟨z, hz⟩ := denotes_of_truth (v := v) htruth
        exact ⟨z, hz.grows (hg.trans hg1), .value hgive hz⟩
    refine ⟨hg1.trans hoperand.1, hcontained, fun v => ?_⟩
    obtain ⟨z, hz, hop⟩ := hoperand.2 v
    have hsub : ∀ u ∈ body.dropLast, u ∈ body := fun u hu => (List.dropLast_sublist body).subset hu
    rcases (hset v).grows hoperand.1 with ⟨hpass, hlead⟩ | ⟨g, x, -, hside, hx, hend⟩
    · refine ⟨z, z, hz, hpass z, fun u => ?_⟩
      obtain ⟨u', hsteps⟩ := hlead u
      have hsteps : ReflTransGen (BlockStep s v top body) (first, u) (last, u') :=
        ReflTransGen.mono (fun _ _ h => ⟨hsub _ h.1, h.2⟩) _ _ hsteps
      exact .trans_right hsteps (.single ⟨List.mem_of_getLast? hlast, n, f, k, hr, hsuits, hop, rfl⟩)
    · refine ⟨z, x, hz, hx z, fun u => ?_⟩
      have hto : g = if v.isTrue x = k then f else n := by
        rw [hside (by cases k <;> rfl)]
        cases k <;> cases v.isTrue x <;> rfl
      exact hto ▸ step_mono hsub (hend u)

theorem returns_compile {e : NodeId} (h : Returns (compile body t) w e w') :
    ∃ r w1, Returns (terms (body.length + 1) body t) w r w1 ∧ ∀ {v : Valuation V} {z x},
      Denotes w1.store v r.2 z → LinksDenote w1.store v r.1 z x →
        Grows w1.store w'.store ∧ Denotes w'.store v e x := by
  obtain ⟨⟨links, last⟩, w1, hr, rest⟩ := h.bind
  refine ⟨(links, last), w1, hr, fun {v z x} hz hx => ?_⟩
  dsimp only at rest
  split at rest
  · rename_i hempty
    obtain ⟨rfl, rfl⟩ := rest.pure
    obtain rfl : links = [] := List.isEmpty_iff.mp hempty
    cases hx
    exact ⟨.refl _, hz⟩
  · exact (TermDenotes.explicit hz hx).assemble (.refl _) rest

theorem Operand.isTrue {i c n f : NodeId} {slot : Option Int} {k : Bool} {z q : V} (h : Operand s v i k z)
    (hx : HasExit s i (.test c n f slot)) (hq : Denotes s v c q) :
    v.isTrue z = if k then !v.isTrue q else v.isTrue q := by
  cases h with
  | test hx' hz =>
    cases hx.det hx'
    rw [hz.det hq]; rfl
  | opposite hx' hz =>
    cases hx.det hx'
    rw [hz.isTrue hq]; rfl
  | value hgive => exact absurd hgive hx.not_assigns

/-! ## Whole conditions -/

variable {no yes : NodeId}

theorem Ladder.terminator_outside {b : Bool} (h : Ladder s body yes no) : (if b then yes else no) ∉ body := by
  cases b
  · exact h.noOutside
  · exact h.yesOutside

theorem Ladder.exits {i : NodeId} (h : Ladder s body yes no) (hi : i ∈ body) :
    ∃ c n f slot, Tests s i c n f ∧ HasExit s i (.test c n f slot) ∧ IsTest s c := by
  obtain ⟨k, hk⟩ := List.getElem?_of_mem hi
  obtain ⟨c, f, ht, hc, -⟩ := h.rung k i hk
  obtain ⟨slot, hx⟩ := ht.exits
  exact ⟨c, _, f, slot, ht, hx, hc⟩

theorem Ladder.span (h : Ladder s body yes no) :
    Span s ⟨.absent, .absent, .absent⟩ body ⟨.absent, yes, no⟩ := by
  have hblock : ∀ i ∈ body, IsBlock s i := fun i hi => by
    obtain ⟨_, _, _, _, ht, -⟩ := h.exits hi
    exact ht.isBlock
  have habsent : ∀ {i}, IsBlock s i → i ≠ .absent := fun hi => hi.ne_absent h.missing
  have htarget : ∀ {k : Nat} {i f : NodeId}, body[k]? = some i → FailsTo s i f → IsBlock s f ∧
      (f = yes ∨ f = no ∨ ∃ j, k < j ∧ body[j]? = some f) := by
    intro k i f hi hlead
    obtain ⟨c, f', ht, -, hf⟩ := h.rung k i hi
    obtain ⟨slot, hx⟩ := ht.exits
    obtain rfl := hlead.det (.test hx)
    refine ⟨?_, hf⟩
    rcases hf with rfl | rfl | ⟨j, -, hj⟩
    · exact h.yesBlock
    · exact h.noBlock
    · exact hblock f (List.mem_of_getElem? hj)
  refine ⟨h.missing, .inl ⟨h.yesBlock, h.noBlock⟩, .inr rfl, ?_, ?_, h.ordered, ?_, ?_, ?_⟩
  · intro f hf hmem
    simp only [Terminators.contains, Bool.or_eq_true, beq_iff_eq] at hf
    rcases hf with (rfl | rfl) | rfl
    · exact h.yesOutside hmem
    · exact h.noOutside hmem
    · exact habsent (hblock _ hmem) rfl
  · intro i hi
    exact ⟨hblock i hi, by simp [Terminators.contains, habsent (hblock i hi)]⟩
  · intro k i n hi hn
    obtain ⟨c, f, ht, hc, -⟩ := h.rung k i hi
    obtain ⟨slot, hx⟩ := ht.exits
    rw [hn] at hx
    obtain ⟨hf, hlater⟩ := htarget hi (.test hx)
    refine ⟨f, .test hx hc, hf, ?_⟩
    rcases hlater with rfl | rfl | hlater
    · exact .inr ⟨f, by simp [Terminators.contains], hf, Int.le_refl _⟩
    · exact .inr ⟨f, by simp [Terminators.contains], hf, Int.le_refl _⟩
    · exact .inl hlater
  · intro k i e j n hi hgive hn
    obtain ⟨_, _, _, _, -, hx, -⟩ := h.exits (List.mem_of_getElem? hi)
    exact absurd hgive hx.not_assigns
  · intro a b y z f k hc hside
    have hf := (htarget hc.last hc.leads).1
    refine ⟨fun _ => ?_, fun p x _ _ hx hlead hfin => ?_⟩
    · obtain ⟨c, n, f', slot, -, hx, -⟩ := h.exits (List.mem_of_getElem? hc.last)
      obtain rfl := hc.leads.det (.test hx)
      cases hside with
      | constant hgive => exact absurd hgive hx.not_assigns
      | test hx' =>
        cases hx.det hx'
        have hends := hc.ends
        have hd := h.distinct
        simp only [Terminators.contains, habsent hf, beq_iff_eq, Bool.or_eq_true, or_false] at hends
        rcases hends with rfl | rfl <;> simp [inverted, habsent hf, hd.symm]
    · simp [Terminators.contains, habsent hf] at hfin

theorem Ladder.walk {j : NodeId} {p q : NodeId × V} (h : Ladder s body yes no)
    (hsub : ∀ i ∈ blocks, i ∈ body)
    (hsteps : ReflTransGen (BlockStep s v ⟨.absent, .absent, .absent⟩ blocks) p q)
    (hw : Walk s v blocks q.1 j) : Walk s v blocks p.1 j := by
  induction hsteps using ReflTransGen.head_induction_on with
  | refl => exact hw
  | head hstep _ ih =>
    obtain ⟨hmem, n, f, k, hr, -, hop, hto⟩ := hstep
    obtain ⟨c, n', f', slot, ht, hx, hc⟩ := h.exits (hsub _ hmem)
    cases hr with
    | constant hgive => exact absurd hgive hx.not_assigns
    | test hx' =>
      cases hx.det hx'
      obtain ⟨x, hd⟩ := hc.denotes (v := v)
      rw [hop.isTrue hx hd] at hto
      have he : _ = if v.isTrue x then n else f := hto.trans (by cases k <;> cases v.isTrue x <;> rfl)
      exact .step hmem ht hd (he ▸ ih)

/-- The expression that is recovered from a run of tests: the tests lead to the last one, whose
truth the expression has, or to the terminator that the truth of the expression says. -/
theorem Ladder.returns_compile {first last c f e : NodeId} {y : V} (h : Ladder w.store body yes no)
    (hfirst : body.head? = some first) (hlast : body.getLast? = some last) (ht : Tests w.store last c yes f)
    (hf : f = yes ∨ f = no) (v : Valuation V) (hy : Denotes w.store v c y)
    (hrun : Returns (compile body ⟨.absent, yes, no⟩) w e w') :
    ∃ x j, Denotes w'.store v e x ∧ Walk w.store v body.dropLast first j ∧
      (j = last ∧ v.isTrue x = (if f == yes then !v.isTrue y else v.isTrue y) ∨
        j = if v.isTrue x then yes else no) := by
  obtain ⟨r, w1, hr, hcompile⟩ := Proofs.returns_compile (V := V) hrun
  obtain ⟨w2, hg2, hlastop, -, hset⟩ := returns_terms (sound_terms (V := V) body.length) h.span
    (by rwa [← List.head?_eq_getElem?]) hlast (.refl _) hr
  obtain ⟨_, _, _, slot, ht', hx, hc⟩ := h.exits (List.mem_of_getLast? hlast)
  obtain ⟨rfl, rfl, rfl⟩ := ht.det ht'
  obtain ⟨hg3, hv⟩ := returns_lastOperand (V := V) h.missing hx hc hg2 hlastop
  obtain ⟨z, hz, hop⟩ := hv v
  have hsub : ∀ i ∈ body.dropLast, i ∈ body := fun i hi => (List.dropLast_sublist body).subset hi
  have hout : ∀ {j}, j ∉ body → Walk w.store v body.dropLast j j := fun hj => .out fun hm => hj (hsub _ hm)
  rcases (hset v).grows hg3 with ⟨hpass, hlead⟩ | ⟨g, x, hg, hside, hx', hend⟩
  · obtain ⟨u, hsteps⟩ := hlead y
    refine ⟨z, last, (hcompile hz (hpass z)).2, h.walk hsub hsteps (.out fun hm => ?_), .inl ⟨rfl, ?_⟩⟩
    · have hd : body.Nodup := h.ordered.imp fun hij he => by subst he; exact Int.lt_irrefl _ hij
      rw [← List.dropLast_append_getLast? last hlast] at hd
      exact (List.nodup_append.mp hd).2.2 last hm last (List.mem_singleton_self _) rfl
    · have hne : f ≠ .absent := by
        rcases hf with rfl | rfl
        · exact h.yesBlock.ne_absent h.missing
        · exact h.noBlock.ne_absent h.missing
      rw [hop.isTrue hx hy]
      simp [inverted, hne]
  · refine ⟨x, g, (hcompile hz (hx' z)).2, ?_, .inr (hside rfl)⟩
    refine h.walk hsub (hend y).to_reflTransGen (hout ?_)
    rw [hside rfl]
    exact h.terminator_outside

theorem Ladder.last {last : NodeId} (h : Ladder s body yes no) (hlast : body.getLast? = some last) :
    ∃ c f, Tests s last c yes f ∧ IsTest s c ∧ (f = yes ∨ f = no) := by
  rw [List.getLast?_eq_getElem?] at hlast
  obtain ⟨c, f, ht, htest, hf⟩ := h.rung _ last hlast
  rw [List.getElem?_eq_none (by omega)] at ht
  refine ⟨c, f, ht, htest, ?_⟩
  rcases hf with hf | hf | ⟨j, hj, hjf⟩
  · exact .inl hf
  · exact .inr hf
  · rw [List.getElem?_eq_none (by omega)] at hjf; cases hjf

/-- The tests lead to the last one and it holds, where it leads to `yes` both ways. -/
def Slips (s : Store) (v : Valuation V) (body : List NodeId) (yes : NodeId) : Prop :=
  ∃ first last c x, body.head? = some first ∧ body.getLast? = some last ∧
    Tests s last c yes yes ∧ Walk s v body.dropLast first last ∧
    Denotes s v c x ∧ v.isTrue x = true

/-- The recovered expression is true exactly when the tests lead to `yes`, unless the last
test is reached, holds and leads to `yes` both ways. -/
theorem compile_agrees_iff {yes no first e : NodeId} (hl : Ladder w.store body yes no)
    (hfirst : body.head? = some first)
    (h : Returns (compile body ⟨.absent, yes, no⟩) w e w') (v : Valuation V) :
    ∃ x, Denotes w'.store v e x ∧
      ((v.isTrue x = true ↔ Walk w.store v body first yes) ↔ ¬ Slips w.store v body yes) := by
  obtain ⟨last, hlast⟩ : ∃ last, body.getLast? = some last :=
    ⟨_, List.getLast?_eq_some_getLast hl.nonempty⟩
  obtain ⟨c, f, ht, htest, hf⟩ := hl.last hlast
  obtain ⟨y, hy⟩ := htest.denotes (v := v)
  obtain ⟨x, j, hx, hw, hj⟩ := hl.returns_compile hfirst hlast ht hf v hy h
  refine ⟨x, hx, ?_⟩
  have hwalk : ∀ {k}, Walk w.store v body j k → Walk w.store v body first k := fun hk =>
    hw.append (fun u hu => (List.dropLast_sublist body).subset hu) hk
  have slips_iff : Slips w.store v body yes ↔ f = yes ∧ j = last ∧ v.isTrue y = true := by
    constructor
    · rintro ⟨first', last', c', y', h1, h2, h3, h4, h5, h6⟩
      rw [hfirst] at h1; cases h1
      rw [hlast] at h2; cases h2
      obtain ⟨rfl, -, rfl⟩ := ht.det h3
      exact ⟨rfl, hw.det h4, hy.det h5 ▸ h6⟩
    · rintro ⟨rfl, rfl, htrue⟩
      exact ⟨first, j, c, y, hfirst, hlast, ht, hw, hy, htrue⟩
  have reaches : ∀ {k}, Walk w.store v body first k → (Walk w.store v body first yes ↔ k = yes) :=
    fun hk => ⟨fun h' => hk.det h', fun he => he ▸ hk⟩
  rcases hj with ⟨rfl, hz⟩ | hj
  · have hstep : Walk w.store v body first (if v.isTrue y then yes else f) := by
      refine hwalk (.step (List.mem_of_getLast? hlast) ht hy (.out ?_))
      rcases hf with rfl | rfl
      · rw [ite_self]; exact hl.yesOutside
      · split
        · exact hl.yesOutside
        · exact hl.noOutside
    rw [reaches hstep, slips_iff, hz]
    rcases hf with rfl | rfl
    · simp
    · have hne := hl.distinct
      cases v.isTrue y <;> simp [hne.symm]
  · rw [reaches (hj ▸ hwalk (.out (hj ▸ hl.terminator_outside))), slips_iff]
    have hne : j ≠ last := by
      rintro rfl
      exact hl.terminator_outside (hj ▸ List.mem_of_getLast? hlast)
    have hd := hl.distinct
    cases v.isTrue x <;> simp [hne, hd.symm]

end

/-- Numbers, of which zero counts as false. -/
def numbers (x : Identifier → Int) : Valuation Int where
  isTrue a := a != 0
  ofBool b := if b then 1 else 0
  isTrue_ofBool := by decide
  ofVariable := x
  ofConstant _ _ := 0
  ofPrimitive _ := 0

/-- Block 7 tests `slot0 < slot1` and block 8 tests `slot2`. The first one leads to block 9
if it fails, and the second one if it holds. -/
def twoTests : Store where
  cells := ([.absent, .identifier { kind := .slot, slot := 0 }, .identifier { kind := .slot, slot := 1 },
    .binary .less ⟨1⟩ ⟨2⟩, .identifier { kind := .slot, slot := 2 }, .test ⟨3⟩ ⟨8⟩ ⟨9⟩ none,
    .test ⟨4⟩ ⟨9⟩ ⟨10⟩ none, .block { index := 0, exit := ⟨5⟩ }, .block { index := 1, exit := ⟨6⟩ },
    .block { index := 2 }, .block { index := 3 }].map ({ node := · })).toArray

theorem twoTests_ladder : Ladder twoTests [⟨7⟩, ⟨8⟩] ⟨9⟩ ⟨10⟩ where
  missing := rfl
  nonempty := nofun
  ordered := by decide
  yesBlock := ⟨_, rfl⟩
  noBlock := ⟨_, rfl⟩
  distinct := nofun
  yesOutside := by decide
  noOutside := by decide
  rung
    | 0, _, rfl =>
      ⟨⟨3⟩, ⟨9⟩, ⟨_, _, rfl, rfl, rfl⟩, .compare rfl rfl (.inl ⟨_, rfl⟩) (.inl ⟨_, rfl⟩), .inl rfl⟩
    | 1, _, rfl => ⟨⟨4⟩, ⟨10⟩, ⟨_, _, rfl, rfl, rfl⟩, .plain rfl, .inr (.inl rfl)⟩
    | _ + 2, _, h => nomatch h

theorem compile_agrees_twoTests : Ladder twoTests [⟨7⟩, ⟨8⟩] ⟨9⟩ ⟨10⟩ ∧
    ∃ e w', Returns (compile [⟨7⟩, ⟨8⟩] ⟨.absent, ⟨9⟩, ⟨10⟩⟩) ⟨twoTests, ()⟩ e w' ∧
      ∃ x, Denotes w'.store (numbers fun _ => 5) e x ∧
        (((numbers fun _ => 5).isTrue x = true ↔ Walk twoTests (numbers fun _ => 5) [⟨7⟩, ⟨8⟩] ⟨7⟩ ⟨9⟩) ↔
          ¬ Slips twoTests (numbers fun _ => 5) [⟨7⟩, ⟨8⟩] ⟨9⟩) :=
  ⟨twoTests_ladder, _, _, rfl, compile_agrees_iff (w := ⟨twoTests, ()⟩) twoTests_ladder rfl rfl _⟩

/-- Block 3 tests a slot and leads to block 4 both ways. -/
def bothWays : Store where
  cells := ([.absent, .identifier { kind := .slot, slot := 0 }, .test ⟨1⟩ ⟨4⟩ ⟨4⟩ none,
    .block { index := 0, exit := ⟨2⟩ }, .block { index := 1 }, .block { index := 2 }].map
      ({ node := · })).toArray

theorem compile_bothWays_wrong : Ladder bothWays [⟨3⟩] ⟨4⟩ ⟨5⟩ ∧
    ∃ e w' x, Returns (compile [⟨3⟩] ⟨.absent, ⟨4⟩, ⟨5⟩⟩) ⟨bothWays, ()⟩ e w' ∧
      Denotes w'.store (numbers fun _ => 1) e x ∧ (numbers fun _ => 1).isTrue x = false ∧
      Walk bothWays (numbers fun _ => 1) [⟨3⟩] ⟨3⟩ ⟨4⟩ := by
  have ladder : Ladder bothWays [⟨3⟩] ⟨4⟩ ⟨5⟩ := {
    missing := rfl
    nonempty := nofun
    ordered := by decide
    yesBlock := ⟨_, rfl⟩
    noBlock := ⟨_, rfl⟩
    distinct := nofun
    yesOutside := by decide
    noOutside := by decide
    rung := fun
      | 0, _, rfl => ⟨⟨1⟩, ⟨4⟩, ⟨_, _, rfl, rfl, rfl⟩, .plain rfl, .inl rfl⟩
      | _ + 1, _, h => nomatch h }
  refine ⟨ladder, ⟨6⟩, _, 0, rfl, ?_, rfl, ?_⟩
  · exact Denotes.not (V := Int) (a := ⟨1⟩) rfl (.identifier (x := { kind := .slot, slot := 0 }) rfl)
  · exact .step (List.mem_singleton_self _) ⟨_, _, rfl, rfl, rfl⟩
      (.identifier (x := { kind := .slot, slot := 0 }) rfl) (.out (by decide))

end LuaLift.Proofs
