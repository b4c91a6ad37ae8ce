import Mathlib.Logic.Relation
import LuaLift.Proofs.Terms

/-! # Operands of a condition

The blocks of a condition are cut into operands, each with terminators of its own. The
invariant of the recursion is `Span`: what a block leads to lies further on in the same
blocks or not before a terminator. A block that leads elsewhere makes the step fail, so an
operand that was cut out is a span again. A block contributes the value of what it tests or
assigns; `BlockStep` goes on from a block as that value says. -/
namespace LuaLift.Proofs
open Tree Flow

/-! ## What a block contributes -/

/-- The truth of a constant, where the step that looks at it takes it for what it is. -/
def truth? : Node → Option Bool
  | .constant _ l => if Literal.isTrue l then some true else none
  | .primitive .true => some true
  | .primitive .nil | .primitive .false => some false
  | _ => none

theorem truth?_eq_some {n : Node} {k : Bool} (h : truth? n = some k) :
    (∃ kind l, n = .constant kind l ∧ Literal.isTrue l = true ∧ k = true) ∨
      ∃ p, n = .primitive p ∧ k = (p == .true) ∧ (p = .true ∨ p = .nil ∨ p = .false) := by
  unfold truth? at h
  split at h
  · split at h <;> cases h
    exact .inl ⟨_, _, rfl, ‹_›, rfl⟩
  all_goals cases h
  · exact .inr ⟨_, rfl, rfl, .inl rfl⟩
  · exact .inr ⟨_, rfl, rfl, .inr (.inl rfl)⟩
  · exact .inr ⟨_, rfl, rfl, .inr (.inr rfl)⟩

/-- Block `i` before block `n` leads to `f`: its test does if it fails, and a constant that is
assigned to the end. -/
inductive Rung (s : Store) (stop i n : NodeId) : NodeId → Prop
  | test {c f slot} : HasExit s i (.test c n f slot) → IsTest s c → Rung s stop i n f
  | constant {e k} : Assigns s i e stop → truth? (s.node e) = some k → Rung s stop i n stop

/-- The truth of its operand on which block `i` is taken to leave for its target. -/
inductive Side (s : Store) (t : Terminators) (i : NodeId) : Bool → Prop
  | test {c n f slot} : HasExit s i (.test c n f slot) → Side s t i (inverted s t (.test c n f slot))
  | constant {e j k} : Assigns s i e j → truth? (s.node e) = some k → Side s t i k

/-- Block `i` leaves for a terminator of the whole expression with a value of truth `k`. -/
inductive Decides (s : Store) (top : Terminators) (i : NodeId) : NodeId → Bool → Prop
  | plain {c n slot x} : HasExit s i (.test c n top.stop slot) → s.node c = .identifier x →
      Decides s top i top.stop false
  | not {c n slot a} : HasExit s i (.test c n top.stop slot) → s.node c = .unary .not a →
      Decides s top i top.stop true
  | constant {e k} : Assigns s i e top.stop → truth? (s.node e) = some k → Decides s top i top.stop k
  | yes {c n slot op l r} : HasExit s i (.test c n top.yes slot) → s.node c = .binary op l r →
      Decides s top i top.yes true
  | no {c n slot op l r} : HasExit s i (.test c n top.no slot) → s.node c = .binary op l r →
      Decides s top i top.no false

/-- Where block `i` leads to a terminator of the whole expression, it does so on truth `k`. -/
def Suits (s : Store) (top : Terminators) (i f : NodeId) (k : Bool) : Prop :=
  top.contains f = true → Decides s top i f k

section
variable {V : Type} [LinearOrder V]

/-- The value of block `i` as an operand that leaves on truth `k`. -/
inductive Operand (s : Store) (v : Valuation V) (i : NodeId) : Bool → V → Prop
  | test {c n f slot z} : HasExit s i (.test c n f slot) → Denotes s v c z → Operand s v i false z
  | opposite {c n f slot z} : HasExit s i (.test c n f slot) → Opposite s v c z → Operand s v i true z
  | value {e j k z} : Assigns s i e j → Denotes s v e z → Operand s v i k z

/-- From a block of `body` to the next place, with the value that the block contributes. -/
def BlockStep (s : Store) (v : Valuation V) (top : Terminators) (body : List NodeId)
    (p q : NodeId × V) : Prop :=
  p.1 ∈ body ∧ ∃ n f k, Rung s top.stop p.1 n f ∧ Suits s top p.1 f k ∧ Operand s v p.1 k q.2 ∧
    q.1 = if v.isTrue q.2 = k then f else n

end

variable {k k' : Bool} {term : Flow.Term} {limit : Int} {inner : List NodeId → Terminators → Edit Terms}
  {p q start : Nat} {e g i x : NodeId}

section
variable {s : Store} {stop i n f : NodeId} {t top : Terminators} {w w' : Work Unit}

theorem Rung.leads (h : Rung s stop i n f) : FailsTo s i f := by
  cases h with
  | test h => exact .test h
  | constant h => exact h.leads

theorem Rung.returns_exitNode {x : Node} (hr : Rung s stop i n f) (hg : Grows s w.store)
    (h : Returns (exitNode i) w x w') :
    w = w' ∧ HasExit s i x ∧ (∀ {g w1}, Returns (targetOf x) w g w1 → g = f ∧ w = w1) ∧
      ∀ {t b w1}, Returns (isInverted x t) w b w1 → b = inverted s t x ∧ w = w1 := by
  cases hr with
  | test hx hc =>
    obtain ⟨rfl, rfl⟩ := Proofs.returns_exitNode hx nofun hg h
    exact ⟨rfl, hx, fun ht => ⟨ht.pure.1.symm, ht.pure.2⟩, returns_isInverted hc hg⟩
  | constant hx =>
    obtain ⟨kind, closes, hx⟩ := hx.exits
    obtain ⟨rfl, rfl⟩ := Proofs.returns_exitNode hx nofun hg h
    exact ⟨rfl, hx, fun ht => ⟨ht.pure.1.symm, ht.pure.2⟩, fun hb => ⟨hb.pure.1.symm, hb.pure.2⟩⟩

theorem Rung.returns_operatorAfter {op : BinaryOp} (hr : Rung s stop i n f) (hg : Grows s w.store)
    (h : Returns (operatorAfter i t) w op w') :
    w = w' ∧ ∃ k, Side s t i k ∧ op = if k then .or else .and := by
  obtain ⟨x, w1, hx, rest⟩ := h.bind
  cases hr with
  | test he hc =>
    obtain ⟨rfl, rfl⟩ := Proofs.returns_exitNode he nofun hg hx
    obtain ⟨b, w2, hb, ret⟩ := Returns.bind rest
    obtain ⟨rfl, rfl⟩ := returns_isInverted hc hg hb
    obtain ⟨rfl, rfl⟩ := ret.pure
    exact ⟨rfl, _, .test he, rfl⟩
  | @constant e k he htrue =>
    obtain ⟨kind, closes, hj⟩ := he.exits
    obtain ⟨rfl, rfl⟩ := Proofs.returns_exitNode hj nofun hg hx
    obtain ⟨r, w2, hr, rest⟩ := Returns.bind rest
    obtain ⟨rfl, rfl⟩ := returns_lastValue he hg hr
    replace rest := Returns.atNode rest
    suffices h : op = (if k then .or else .and) ∧ w = w' from ⟨h.2, k, .constant he htrue, h.1⟩
    rcases truth?_eq_some htrue with ⟨_, l, hn, hl, rfl⟩ | ⟨p, hn, rfl, -⟩
    · rw [hg.node_eq hn nofun] at rest
      dsimp only at rest
      rw [hl] at rest
      exact ⟨rest.pure.1.symm, rest.pure.2⟩
    · rw [hg.node_eq hn nofun] at rest
      exact ⟨rest.pure.1.symm, rest.pure.2⟩

theorem Decides.truth {j : NodeId} (h : Decides s top i f k) (hg : Assigns s i e j)
    (ht : truth? (s.node e) = some k') : k' = k := by
  cases h with
  | plain hx | not hx | yes hx | no hx => exact absurd hg hx.not_assigns
  | constant hg' ht' =>
    rw [hg.det hg', ht'] at ht
    exact (Option.some.inj ht).symm

end

/-! ## The blocks of an operand -/

/-- Blocks that have been passed: they lead to later blocks of the operand. -/
def Passed (s : Store) (body : List NodeId) (start i : Nat) : Prop :=
  ∀ p x f, start ≤ p → p < i → body[p]? = some x → FailsTo s x f → ∃ j, p < j ∧ body[j]? = some f

/-- Neighbouring blocks that lead to the same place and count alike as inverted. -/
structure BlockRun (s : Store) (body : List NodeId) (t : Terminators) (f : NodeId) (i k : Nat) : Prop where
  leads : ∀ p x, i ≤ p → p ≤ k → body[p]? = some x → FailsTo s x f
  alike : ∀ p x y m n, i ≤ p → p < k → body[p]? = some x → body[p + 1]? = some y → HasExit s x m →
    HasExit s y n → inverted s t n = inverted s t m

/-- The blocks from `a` up to `b` are an operand before block `y`. It ends in block `z`, which
leads to the terminator `f`. -/
structure Cut (s : Store) (body : List NodeId) (t : Terminators) (a b : Nat) (y z f : NodeId) :
    Prop where
  lt : a < b
  next : body[b]? = some y
  last : body[b - 1]? = some z
  leads : FailsTo s z f
  ends : t.contains f = true
  stays : ∀ p x g, a ≤ p → p + 1 < b → body[p]? = some x → FailsTo s x g →
    (∃ q, p < q ∧ q < b ∧ body[q]? = some g) ∨ blockIndex s y ≤ blockIndex s g ∨ g = f
  formed : (∃ x, body[a]? = some x ∧ FailsTo s x y) ∨
    ∃ i, a ≤ i ∧ i < b ∧ Passed s body a i ∧ BlockRun s body t f i (b - 1)

/-- The blocks of an operand of an expression with terminators `top`: a block leads to a later
one or not before a terminator. A constant before other blocks is passed over by a test, and
what leads to one terminator does so on one truth. -/
structure Span (s : Store) (top : Terminators) (body : List NodeId) (t : Terminators) : Prop where
  missing : s.node .absent = .absent
  terminators : IsBlock s t.yes ∧ IsBlock s t.no ∨ t.yes = .absent ∧ t.no = .absent
  stop : IsBlock s t.stop ∨ t.stop = .absent
  outside : ∀ f, t.contains f = true → f ∉ body
  within : ∀ i ∈ body, IsBlock s i ∧ top.contains i = false
  ordered : body.Pairwise fun i j => blockIndex s i < blockIndex s j
  rung : ∀ k i n, body[k]? = some i → body[k + 1]? = some n → ∃ f, Rung s top.stop i n f ∧ IsBlock s f ∧
    ((∃ j, k < j ∧ body[j]? = some f) ∨
      ∃ g, t.contains g = true ∧ IsBlock s g ∧ blockIndex s g ≤ blockIndex s f)
  passedOver : ∀ k i e j n, body[k]? = some i → Assigns s i e j → body[k + 1]? = some n →
    ∃ q x, q < k ∧ body[q]? = some x ∧ FailsTo s x n
  suits : ∀ {a b y z f k}, Cut s body t a b y z f → Side s t z k →
    (t.stop = .absent → f = if k then t.yes else t.no) ∧
      ∀ p x, a ≤ p → p < b → body[p]? = some x → FailsTo s x f → Suits s top x f k

variable {a b : Nat} {f y z : NodeId}

section
variable {s : Store} {body : List NodeId} {t top : Terminators} {w w' : Work Unit}

section
variable (h : body.Pairwise fun i j => blockIndex s i < blockIndex s j)
include h

theorem ordered_lt {a b : NodeId}
    (ha : body[p]? = some a) (hb : body[q]? = some b) (hpq : p < q) : blockIndex s a < blockIndex s b := by
  obtain ⟨hp, rfl⟩ := List.getElem?_eq_some_iff.mp ha
  obtain ⟨hq, rfl⟩ := List.getElem?_eq_some_iff.mp hb
  exact List.pairwise_iff_getElem.mp h p q hp hq hpq

theorem ordered_inj {a : NodeId} (ha : body[p]? = some a) (hb : body[q]? = some a) : p = q := by
  rcases Nat.lt_trichotomy p q with hpq | hpq | hpq
  · exact absurd (ordered_lt h ha hb hpq) (Int.lt_irrefl _)
  · exact hpq
  · exact absurd (ordered_lt h hb ha hpq) (Int.lt_irrefl _)

theorem ordered_le {a b : NodeId}
    (ha : body[p]? = some a) (hb : body[q]? = some b) (hpq : p ≤ q) : blockIndex s a ≤ blockIndex s b := by
  rcases Nat.lt_or_eq_of_le hpq with hlt | rfl
  · exact Int.le_of_lt (ordered_lt h ha hb hlt)
  · rw [ha] at hb; cases hb
    exact Int.le_refl _

end

theorem between_getElem? {k : Nat} : (between body a b)[k]? = if a + k < b then body[a + k]? else none := by
  simp [between, List.getElem?_drop, List.getElem?_take]

theorem getElem?_of_between (h : (between body a b)[p]? = some i) : a + p < b ∧ body[a + p]? = some i := by
  rw [between_getElem?] at h
  split at h <;> [exact ⟨‹_›, h⟩; cases h]

theorem between_of_getElem? (hq : a ≤ q) (hqb : q < b) (h : body[q]? = some i) :
    (between body a b)[q - a]? = some i := by
  rw [between_getElem?, Nat.add_sub_cancel' hq, if_pos hqb, h]

theorem mem_of_mem_between (h : i ∈ between body a b) : i ∈ body :=
  List.mem_of_mem_take (List.mem_of_mem_drop h)

theorem mem_dropLast_of_getElem? {k : Nat} (h : body[k]? = some i) (hk : k + 1 < body.length) :
    i ∈ body.dropLast := by
  refine List.mem_of_getElem? (i := k) ?_
  rw [List.getElem?_dropLast, if_pos (by omega), h]

theorem returns_terminatorIndex {k : Int} (hs : Span s top body t) (hg : Grows s w.store)
    (h : Returns (terminatorIndex t) w k w') :
    w = w' ∧ ∀ g, t.contains g = true → IsBlock s g → k ≤ blockIndex s g := by
  have cases_of : ∀ {g}, t.contains g = true → IsBlock s g → g = t.yes ∨ g = t.no ∨ g = t.stop := by
    intro g hc _
    simpa [Terminators.contains, or_assoc] using hc
  unfold terminatorIndex at h
  rcases hs.terminators with ⟨hyes, hno⟩ | ⟨hyes, hno⟩
  · rw [if_pos (by simpa using hyes.ne_absent hs.missing)] at h
    obtain ⟨y, w1, hy, rest⟩ := h.bind
    obtain ⟨rfl, rfl⟩ := returns_indexOf hyes hg hy
    obtain ⟨n, w2, hn, rest⟩ := Returns.bind rest
    obtain ⟨rfl, rfl⟩ := returns_indexOf hno hg hn
    rcases hs.stop with hstop | hstop
    · rw [if_pos (by simpa using hstop.ne_absent hs.missing)] at rest
      obtain ⟨m, w3, hm, ret⟩ := Returns.bind rest
      obtain ⟨rfl, rfl⟩ := returns_indexOf hstop hg hm
      obtain ⟨rfl, rfl⟩ := ret.pure
      refine ⟨rfl, fun g hc hb => ?_⟩
      rcases cases_of hc hb with rfl | rfl | rfl <;> omega
    · rw [if_neg (by simp [hstop])] at rest
      obtain ⟨rfl, rfl⟩ := rest.pure
      refine ⟨rfl, fun g hc hb => ?_⟩
      rcases cases_of hc hb with rfl | rfl | rfl
      · omega
      · omega
      · exact absurd hstop (hb.ne_absent hs.missing)
  · rw [if_neg (by simp [hyes])] at h
    obtain ⟨u, w1, hu, rest⟩ := h.bind
    obtain ⟨hne, rfl⟩ := returns_require hu
    have hstop : IsBlock s t.stop := hs.stop.resolve_right (by simpa using hne)
    obtain ⟨rfl, rfl⟩ := returns_indexOf hstop hg rest
    refine ⟨rfl, fun g hc hb => ?_⟩
    rcases cases_of hc hb with rfl | rfl | rfl
    · exact absurd hyes (hb.ne_absent hs.missing)
    · exact absurd hno (hb.ne_absent hs.missing)
    · omega

theorem returns_extendRun (hs : Span s top body t) (hg : Grows s w.store) :
    ∀ {fuel i k : Nat}, i + 1 < body.length → (∀ x, body[i]? = some x → FailsTo s x f) →
      Returns (extendRun body t f fuel i) w k w' →
      w = w' ∧ i ≤ k ∧ k + 1 < body.length ∧ BlockRun s body t f i k := by
  have single : ∀ {i : Nat}, (∀ x, body[i]? = some x → FailsTo s x f) → BlockRun s body t f i i :=
    fun hi => ⟨fun p x hp hp' hx => hi x (Nat.le_antisymm hp' hp ▸ hx), fun _ _ _ _ _ _ _ => by omega⟩
  intro fuel
  induction fuel with
  | zero =>
    intro i k hi hf h
    obtain ⟨rfl, rfl⟩ := h.pure
    exact ⟨rfl, Nat.le_refl _, hi, single hf⟩
  | succ fuel ih =>
    intro i k hi hf h
    have stay : i = k ∧ w = w' → w = w' ∧ i ≤ k ∧ k + 1 < body.length ∧ BlockRun s body t f i k := by
      rintro ⟨rfl, rfl⟩
      exact ⟨rfl, Nat.le_refl _, hi, single hf⟩
    unfold extendRun at h
    split at h
    · rename_i hlt
      obtain ⟨next, w1, hn, rest⟩ := h.bind
      obtain ⟨hat, rfl⟩ := returns_atPosition hn
      have hnext : body[i + 1]? = some next := by rwa [← at?_ofNat]
      obtain ⟨g, hr, -, -⟩ := hs.rung _ _ _ hnext (List.getElem?_eq_getElem hlt)
      obtain ⟨x, w2, hx, rest⟩ := Returns.bind rest
      obtain ⟨rfl, hexit, htarget, hinverted⟩ := hr.returns_exitNode hg hx
      obtain ⟨g', w3, hg', rest⟩ := Returns.bind rest
      obtain ⟨rfl, rfl⟩ := htarget hg'
      split at rest
      · exact stay rest.pure
      · rename_i hne
        obtain rfl : g' = f := by simpa using hne
        obtain ⟨b, w4, hb, rest⟩ := Returns.bind rest
        obtain ⟨rfl, rfl⟩ := hinverted hb
        obtain ⟨cur, w5, hcur, rest⟩ := Returns.bind rest
        obtain ⟨hat, rfl⟩ := returns_atPosition hcur
        rw [at?_ofNat] at hat
        obtain ⟨g, hr', -, -⟩ := hs.rung _ _ _ hat hnext
        obtain ⟨x', w6, hx', rest⟩ := Returns.bind rest
        obtain ⟨rfl, hexit', -, hinverted'⟩ := hr'.returns_exitNode hg hx'
        obtain ⟨b', w7, hb', rest⟩ := Returns.bind rest
        obtain ⟨rfl, rfl⟩ := hinverted' hb'
        split at rest
        · exact stay rest.pure
        · rename_i hsame
          obtain ⟨hw, hle, hk, hrun⟩ := ih (by omega) (fun y hy => by
            rw [hnext] at hy; cases hy
            exact hr.leads) rest
          refine ⟨hw, by omega, hk, ⟨fun p y hp hp' hy => ?_, fun p y y' m n hp hp' hy hy' hm hn => ?_⟩⟩
          · rcases Nat.lt_or_eq_of_le hp with hlt' | rfl
            · exact hrun.leads p y hlt' hp' hy
            · exact hf y hy
          · rcases Nat.lt_or_eq_of_le hp with hlt' | rfl
            · exact hrun.alike p y y' m n hlt' hp' hy hy' hm hn
            · rw [hat] at hy; cases hy
              rw [hnext] at hy'; cases hy'
              rw [hexit'.det hm, hexit.det hn] at hsame
              simpa using hsame
    · exact stay h.pure

theorem Span.cut_past {k : Nat} (hs : Span s top body t)
    (hlimit : ∀ g, t.contains g = true → IsBlock s g → limit ≤ blockIndex s g) (hx : body[start]? = some x)
    (hpast : FailsTo s x f) (hlt : start < k) (hk : body[k]? = some f) (hf : blockIndex s f < limit)
    (hz : body[k - 1]? = some z) (hlead : FailsTo s z g) (hg : t.contains g = true) :
    Cut s body t start k f z g := by
  refine ⟨hlt, hk, hz, hlead, hg, fun p x' g' _ hp2 hxp hg' => ?_, .inl ⟨x, hx, hpast⟩⟩
  obtain ⟨hlen, -⟩ := List.getElem?_eq_some_iff.mp hk
  obtain ⟨gp, hrp, -, hin⟩ := hs.rung p x' _ hxp (List.getElem?_eq_getElem (by omega))
  obtain rfl := hrp.leads.det hg'
  rcases hin with ⟨q, hpq, hq⟩ | ⟨d, hd, hdb, hle⟩
  · by_cases hqk : q < k
    · exact .inl ⟨q, hpq, hqk, hq⟩
    · exact .inr (.inl (ordered_le hs.ordered hk hq (by omega)))
  · have := hlimit d hd hdb
    exact .inr (.inl (by omega))

theorem Span.cut_run {i k : Nat} (hs : Span s top body t) (hsi : start ≤ i) (hp : Passed s body start i)
    (hik : i ≤ k) (hrun : BlockRun s body t f i k) (hz : body[k]? = some z) (hy : body[k + 1]? = some y)
    (hf : t.contains f = true) : Cut s body t start (k + 1) y z f := by
  refine ⟨by omega, hy, hz, hrun.leads k z hik (Nat.le_refl _) hz, hf,
    fun p x' g hp1 hp2 hxp hg' => ?_, .inr ⟨i, hsi, by omega, hp, hrun⟩⟩
  by_cases hpi : p < i
  · -- the block was passed, so it leads ahead
    obtain ⟨q, hpq, hq⟩ := hp p x' g hp1 hpi hxp hg'
    by_cases hqk : q < k + 1
    · exact .inl ⟨q, hpq, hqk, hq⟩
    · exact .inr (.inl (ordered_le hs.ordered hy hq (by omega)))
  · exact .inr (.inr (hg'.det (hrun.leads p x' (by omega) (by omega) hxp)))

theorem returns_operandAt {i : Nat} {r : Option (Nat × Nat)} (hs : Span s top body t) (hg : Grows s w.store)
    (hlimit : ∀ g, t.contains g = true → IsBlock s g → limit ≤ blockIndex s g) (hi : i + 1 < body.length)
    (hsi : start ≤ i) (hp : Passed s body start i) (h : Returns (operandAt body t limit i start) w r w') :
    w = w' ∧ ((r = none ∧ Passed s body start (i + 1)) ∨
      ∃ b y z f, r = some (start, b) ∧ i < b ∧ Cut s body t start b y z f) := by
  obtain ⟨x, w1, hx, rest⟩ := h.bind
  obtain ⟨hat, rfl⟩ := returns_atPosition hx
  rw [at?_ofNat] at hat
  obtain ⟨f, hr, hf, hlater⟩ := hs.rung i x _ hat (List.getElem?_eq_getElem hi)
  obtain ⟨f', w2, hf', rest⟩ := Returns.bind rest
  obtain ⟨rfl, rfl⟩ := returns_targetOfBlock hr.leads hg hf'
  obtain ⟨k, w3, hk, rest⟩ := Returns.bind rest
  obtain ⟨rfl, rfl⟩ := returns_indexOf hf hg hk
  have ahead : blockIndex s f < limit → ∃ j, i < j ∧ body[j]? = some f := by
    intro hlt
    rcases hlater with hlater | ⟨g, hc, hb, hle⟩
    · exact hlater
    · have := hlimit g hc hb
      omega
  have passed : blockIndex s f < limit → Passed s body start (i + 1) := by
    intro hlt p b f' hp1 hp2 hb hf'
    rcases Nat.lt_or_eq_of_le (Nat.le_of_lt_succ hp2) with hlt' | rfl
    · exact hp p b f' hp1 hlt' hb hf'
    · rw [hat] at hb; cases hb
      rw [← hr.leads.det hf']
      exact ahead hlt
  split at rest
  · rename_i hlt
    split at rest
    · obtain ⟨rfl, rfl⟩ := rest.pure
      exact ⟨rfl, .inl ⟨rfl, passed hlt⟩⟩
    · rename_i hst
      have hst : i = start := by simpa using hst
      obtain ⟨k, w4, hk', rest⟩ := Returns.bind rest
      obtain ⟨hkf, rfl⟩ := returns_positionOf hk'
      -- the block leads ahead, so the operand is not empty
      obtain ⟨j, hij, hj⟩ := ahead hlt
      obtain rfl := ordered_inj hs.ordered hkf hj
      obtain ⟨z, w5, hz, rest⟩ := Returns.bind rest
      obtain ⟨hat', rfl⟩ := returns_atPosition hz
      rw [show ((k : Int) - 1) = ((k - 1 : Nat) : Int) by omega, at?_ofNat] at hat'
      have hnk : body[k - 1 + 1]? = some f := by rw [Nat.sub_add_cancel (by omega)]; exact hkf
      obtain ⟨g, hr', hgb, -⟩ := hs.rung (k - 1) z f hat' hnk
      obtain ⟨g', w6, hg', rest⟩ := Returns.bind rest
      obtain ⟨rfl, rfl⟩ := returns_targetOfBlock hr'.leads hg hg'
      obtain ⟨m, w7, hm, rest⟩ := Returns.bind rest
      obtain ⟨rfl, rfl⟩ := returns_indexOf hgb hg hm
      split at rest
      · obtain ⟨rfl, rfl⟩ := rest.pure
        exact ⟨rfl, .inl ⟨rfl, passed hlt⟩⟩
      · obtain ⟨u, w8, hreq, ret⟩ := Returns.bind rest
        obtain ⟨hc, rfl⟩ := returns_require hreq
        obtain ⟨rfl, rfl⟩ := ret.pure
        exact ⟨rfl, .inr ⟨k, f, z, g, by rw [hst], hij,
          hs.cut_past hlimit (hst ▸ hat) hr.leads (by omega) hkf hlt hat' hr'.leads hc⟩⟩
  · obtain ⟨u, w4, hreq, rest⟩ := Returns.bind rest
    obtain ⟨hc, rfl⟩ := returns_require hreq
    obtain ⟨k, w5, hrun, ret⟩ := Returns.bind rest
    obtain ⟨rfl, hik, hk, hsame⟩ := returns_extendRun hs hg hi (fun b hb => by
      rw [hat] at hb; cases hb
      exact hr.leads) hrun
    obtain ⟨rfl, rfl⟩ := ret.pure
    exact ⟨rfl, .inr ⟨k + 1, _, _, f, rfl, by omega, hs.cut_run hsi hp hik hsame
      (List.getElem?_eq_getElem (by omega)) (List.getElem?_eq_getElem hk) hc⟩⟩

theorem length_between (hb : b ≤ body.length) : (between body a b).length = b - a := by
  simp [between, Nat.min_eq_left hb]

theorem between_getLast? (hab : a < b) (hb : b ≤ body.length) :
    (between body a b).getLast? = body[b - 1]? := by
  rw [List.getLast?_eq_getElem?, between_getElem?, length_between hb, if_pos (by omega)]
  congr 1; omega

theorem next_notMem_between (h : body.Pairwise fun i j => blockIndex s i < blockIndex s j)
    (hy : body[b]? = some y) : y ∉ between body a b := by
  intro hmem
  obtain ⟨k, hk⟩ := List.getElem?_of_mem hmem
  rw [between_getElem?] at hk
  split at hk
  · have := ordered_inj h hk hy; omega
  · cases hk

/-- The blocks before position `p` do not lead past it. -/
def Sealed (s : Store) (body : List NodeId) (p : Nat) : Prop :=
  ∀ q x g j, q < p → body[q]? = some x → FailsTo s x g → body[j]? = some g → j ≤ p

/-- The terminators of an operand that leaves for `f` on truth `k`, before block `y`. -/
def sideTerminators (k : Bool) (f y : NodeId) : Terminators :=
  if k then ⟨.absent, f, y⟩ else ⟨.absent, y, f⟩

theorem contains_sideTerminators :
    (sideTerminators k f y).contains g = true ↔ g = f ∨ g = y ∨ g = .absent := by
  cases k <;> simp [sideTerminators, Terminators.contains, or_comm, or_left_comm]

theorem Cut.isBlock (hs : Span s top body t) (hc : Cut s body t a b y z f) : IsBlock s f := by
  have hlt := hc.lt
  obtain ⟨f', hr, hf, -⟩ := hs.rung (b - 1) z y hc.last (by rw [Nat.sub_add_cancel (by omega), hc.next])
  rwa [hc.leads.det hr.leads]

/-- An operand of an operand leads to a terminator on one truth, and to that of the outer
operand on the truth on which the outer operand does. -/
theorem Cut.inner_truth {a' b' : Nat} {y' z' f' : NodeId} (hs : Span s top body t)
    (hc : Cut s body t a b y z f) (hside : Side s t z k)
    (hc' : Cut s (between body a b) (sideTerminators k f y) a' b' y' z' f')
    (hside' : Side s (sideTerminators k f y) z' k') :
    f' = (if k' then (sideTerminators k f y).yes else (sideTerminators k f y).no) ∧
      (top.contains f' = true → f' = f ∧ k' = k) := by
  have hlen : b < body.length := (List.getElem?_eq_some_iff.mp hc.next).1
  have hyb : y ∈ body := List.mem_of_getElem? hc.next
  obtain ⟨hyblock, hytop⟩ := hs.within y hyb
  have hne : f ≠ y := fun he => hs.outside f hc.ends (he ▸ hyb)
  have hfa := (hc.isBlock hs).ne_absent hs.missing
  obtain ⟨hzb, hz'⟩ := getElem?_of_between hc'.last
  obtain ⟨g, hr, hg, -⟩ := hs.rung _ z' _ hz' (List.getElem?_eq_getElem (by omega))
  obtain rfl := hc'.leads.det hr.leads
  have hfy : f' = f ∨ f' = y := by
    rcases contains_sideTerminators.mp hc'.ends with h | h | h
    · exact .inl h
    · exact .inr h
    · exact absurd h (hg.ne_absent hs.missing)
  -- what leads to a terminator of the whole expression leads where the operand ends
  have hfinal : top.contains f' = true → f' = f := by
    intro hfin
    rcases hfy with h | rfl
    · exact h
    · rw [hytop] at hfin; cases hfin
  cases hside' with
  | @test c n g slot hx =>
    obtain rfl := hc'.leads.det (.test hx)
    have hk : f' = f → inverted s (sideTerminators k f y) (.test c n f' slot) = k := by
      rintro rfl
      cases k <;> simp [sideTerminators, inverted, hne, hfa]
    refine ⟨?_, fun hfin => ⟨hfinal hfin, hk (hfinal hfin)⟩⟩
    rcases hfy with rfl | rfl <;> cases k <;>
      simp [sideTerminators, inverted, hne, hne.symm, hfa, hyblock.ne_absent hs.missing]
  | @constant e j _ hgive htruth =>
    obtain rfl : f' = top.stop := by
      cases hr with
      | test hx => exact absurd hgive hx.not_assigns
      | constant => rfl
    have hfin : top.contains top.stop = true := by simp [Terminators.contains]
    obtain rfl := hfinal hfin
    have hdecides := (hs.suits hc hside).2 _ z' (by omega) hzb hz' hc'.leads hfin
    obtain rfl := hdecides.truth hgive htruth
    cases k' <;> exact ⟨rfl, fun _ => ⟨rfl, rfl⟩⟩

/-- An operand that was cut out is a span between the block after it and the terminator
that its last block leads to. -/
theorem Cut.span (hs : Span s top body t) (hc : Cut s body t a b y z f)
    (hsealed : Sealed s body a) (hside : Side s t z k) :
    Span s top (between body a b) (sideTerminators k f y) := by
  have hyblock := (hs.within y (List.mem_of_getElem? hc.next)).1
  have hf := hc.isBlock hs
  refine ⟨hs.missing, ?_, .inr (by cases k <;> rfl), ?_, fun i hi => hs.within i (mem_of_mem_between hi),
    hs.ordered.sublist ((List.drop_sublist _ _).trans (List.take_sublist _ _)), ?_, ?_, ?_⟩
  · cases k <;> exact .inl ⟨by assumption, by assumption⟩
  · intro g hg hmem
    rcases contains_sideTerminators.mp hg with rfl | rfl | rfl
    · exact hs.outside g hc.ends (mem_of_mem_between hmem)
    · exact next_notMem_between hs.ordered hc.next hmem
    · exact (hs.within _ (mem_of_mem_between hmem)).1.ne_absent hs.missing rfl
  · intro p i n hi hn
    obtain ⟨hpb, hi⟩ := getElem?_of_between hi
    obtain ⟨hpb', hn⟩ := getElem?_of_between hn
    obtain ⟨g, hr, hg, -⟩ := hs.rung (a + p) i n hi hn
    refine ⟨g, hr, hg, ?_⟩
    rcases hc.stays (a + p) i g (by omega) (by omega) hi hr.leads with ⟨q, hq, hqb, hqf⟩ | hle | rfl
    · exact .inl ⟨q - a, by omega, between_of_getElem? (by omega) hqb hqf⟩
    · exact .inr ⟨y, contains_sideTerminators.mpr (.inr (.inl rfl)), hyblock, hle⟩
    · exact .inr ⟨g, contains_sideTerminators.mpr (.inl rfl), hf, Int.le_refl _⟩
  · intro p i e j n hi hgive hn
    obtain ⟨hpb, hi⟩ := getElem?_of_between hi
    obtain ⟨hpb', hn⟩ := getElem?_of_between hn
    obtain ⟨q, x, hq, hx, hlead⟩ := hs.passedOver (a + p) i e j n hi hgive hn
    have haq : a ≤ q := by
      by_contra hqa
      have := hsealed q x n _ (by omega) hx hlead hn
      omega
    exact ⟨q - a, x, by omega, between_of_getElem? haq (by omega) hx, hlead⟩
  · intro a' b' y' z' f' k' hc' hside'
    obtain ⟨hto, hsame⟩ := hc.inner_truth hs hside hc' hside'
    refine ⟨fun _ => hto, fun p x hp hpb hx hlead hfin => ?_⟩
    obtain ⟨rfl, rfl⟩ := hsame hfin
    obtain ⟨hpb', hx⟩ := getElem?_of_between hx
    exact (hs.suits hc hside).2 (a + p) x (by omega) hpb' hx hlead hfin

end

/-! ## Operands and conditions -/

section
open Relation
variable {V : Type} [LinearOrder V] {s : Store} {body : List NodeId} {t top : Terminators}
  {w w' : Work Unit}

theorem step_mono {v : Valuation V} {blocks : List NodeId} (h : ∀ i ∈ body, i ∈ blocks)
    {p q : NodeId × V} (hp : TransGen (BlockStep s v top body) p q) :
    TransGen (BlockStep s v top blocks) p q :=
  TransGen.mono (fun _ _ hs => ⟨h _ hs.1, hs.2⟩) _ _ hp

variable (V s top) in
/-- What the recursion promises of an operand that its last block leaves for one terminator on
truth `k` and for the other one otherwise: the blocks lead to `yes` if the value of the operand
is true and to `no` if it is false, where that value is what the last of them contributes. -/
def Sound (inner : List NodeId → Terminators → Edit Terms) : Prop :=
  ∀ body first last n f k w r w', Span s top body (sideTerminators k f n) → body[0]? = some first →
    body.getLast? = some last → Rung s top.stop last n f → Suits s top last f k → f ≠ n →
    Grows s w.store → Returns (inner body (sideTerminators k f n)) w r w' →
    Grows w.store w'.store ∧
      (∀ q x g, q + 1 < body.length → body[q]? = some x → FailsTo s x g →
        g ∈ body ∨ (sideTerminators k f n).contains g = true) ∧
      ∀ v : Valuation V, ∃ z x, Denotes w'.store v r.2 z ∧ LinksDenote w'.store v r.1 z x ∧
        ∀ u, TransGen (BlockStep s v top body) (first, u) (if v.isTrue x = k then f else n, x)

theorem returns_inverted {c n : NodeId} {slot : Option Int} (hm : s.node .absent = .absent)
    (hx : HasExit s i (.test c n f slot)) (hc : IsTest s c) (hg : Grows s w.store)
    (h : Returns (if k then invert c else pure c) w e w') :
    Grows w.store w'.store ∧ ∀ v : Valuation V, ∃ z, Denotes w'.store v e z ∧ Operand s v i k z := by
  cases k with
  | true =>
    obtain ⟨hg', hv⟩ := returns_invert (V := V) hm hc hg h
    refine ⟨hg', fun v => ?_⟩
    obtain ⟨z, hz, hop⟩ := hv v
    exact ⟨z, hz, .opposite hx hop⟩
  | false =>
    obtain ⟨rfl, rfl⟩ := h.pure
    refine ⟨.refl _, fun v => ?_⟩
    obtain ⟨z, hz⟩ := hc.denotes (v := v)
    exact ⟨z, hz.grows hg, .test hx hz⟩

theorem Rung.returns_operandTerminators {stop : NodeId} {t' : Terminators}
    (hr : Rung s stop i y f) (hg : Grows s w.store)
    (h : Returns (operandTerminators (if k then .or else .and) i y) w t' w') :
    t' = sideTerminators k f y ∧ w = w' := by
  obtain ⟨x, w1, hx, rest⟩ := h.bind
  cases hr with
  | test he =>
    obtain ⟨rfl, rfl⟩ := Proofs.returns_exitNode he nofun hg hx
    obtain ⟨rfl, rfl⟩ := Returns.pure rest
    cases k <;> exact ⟨rfl, rfl⟩
  | constant hgive =>
    obtain ⟨kind, closes, he⟩ := hgive.exits
    obtain ⟨rfl, rfl⟩ := Proofs.returns_exitNode he nofun hg hx
    obtain ⟨rfl, rfl⟩ := Returns.pure rest
    cases k <;> exact ⟨rfl, rfl⟩

/-- An operand leads to the terminator of its last block and up to the block after it, if its
blocks lead to its own terminators and nowhere else. -/
theorem Cut.leads_within (hs : Span s top body t) (hc : Cut s body t a b y z f)
    (hin : ∀ q x g, q + 1 < (between body a b).length → (between body a b)[q]? = some x →
      FailsTo s x g → g ∈ between body a b ∨ (sideTerminators k f y).contains g = true)
    (hq : a ≤ q) (hqb : q < b) (hi : body[q]? = some i) (hlead : FailsTo s i g) :
    g = f ∨ ∃ j, j ≤ b ∧ body[j]? = some g := by
  have hlen : b < body.length := (List.getElem?_eq_some_iff.mp hc.next).1
  by_cases hqb' : q + 1 < b
  · rcases hin (q - a) i g (by rw [length_between (Nat.le_of_lt hlen)]; omega)
      (between_of_getElem? hq hqb hi) hlead with hmem | hmem
    · obtain ⟨j, hj⟩ := List.getElem?_of_mem hmem
      obtain ⟨hjb, hj⟩ := getElem?_of_between hj
      exact .inr ⟨a + j, by omega, hj⟩
    · rcases contains_sideTerminators.mp hmem with rfl | rfl | rfl
      · exact .inl rfl
      · exact .inr ⟨b, Nat.le_refl _, hc.next⟩
      · obtain ⟨g, hr', hb', -⟩ := hs.rung q i _ hi (List.getElem?_eq_getElem (by omega))
        exact absurd (hlead.det hr'.leads).symm (hb'.ne_absent hs.missing)
  · obtain rfl : q = b - 1 := by omega
    rw [hc.last] at hi; cases hi
    exact .inl (hlead.det hc.leads)

theorem returns_operandTerm_single (hs : Span s top body t) (hc : Cut s body t a (a + 1) y z f)
    (hsealed : Sealed s body a) (hside : Side s t z k) (hg : Grows s w.store)
    (h : Returns (operandTerm inner [z] (if k then .or else .and) z y t) w term w') :
    Grows w.store w'.store ∧ ∀ v : Valuation V, ∃ u, TermDenotes w'.store v term u ∧
      ∀ u', BlockStep s v top [z] (z, u') (if v.isTrue u = k then f else y, u) := by
  have hlast : body[a]? = some z := hc.last
  obtain ⟨f', hr, -⟩ := hs.rung a z y hlast hc.next
  obtain rfl := hc.leads.det hr.leads
  have hsuits := (hs.suits hc hside).2 a z (Nat.le_refl _) (by omega) hlast hc.leads
  obtain ⟨m, w1, he, rest⟩ := h.bind
  cases hr with
  | @test c _ slot hexit htest =>
    obtain ⟨rfl, rfl⟩ := returns_exitNode hexit nofun hg he
    obtain ⟨k', w2, hk, rest⟩ := Returns.bind rest
    obtain ⟨rfl, rfl⟩ := returns_isInverted htest hg hk
    obtain rfl : k = inverted s t (.test c y f slot) := by
      cases hside with
      | test hexit' => cases hexit.det hexit'; rfl
      | constant hgive => exact absurd hgive hexit.not_assigns
    have rest' : Returns ((if inverted s t (.test c y f slot) then invert c else pure c) >>=
        fun e => pure (.leaf e)) w term w' := by
      revert rest; cases inverted s t (.test c y f slot) <;> exact id
    obtain ⟨e, w3, he', ret⟩ := rest'.bind
    obtain ⟨rfl, rfl⟩ := ret.pure
    obtain ⟨hg', hv⟩ := returns_inverted (V := V) hs.missing hexit htest hg he'
    refine ⟨hg', fun v => ?_⟩
    obtain ⟨u, hu, hop⟩ := hv v
    exact ⟨u, .leaf hu, fun u' => ⟨List.mem_singleton_self z, y, f, _, .test hexit htest, hsuits, hop, rfl⟩⟩
  | constant hgive =>
    -- a constant is passed over, but nothing before this operand leads past it
    obtain ⟨q, i, hq, hi, hlead⟩ := hs.passedOver a z _ _ y hlast hgive hc.next
    have := hsealed q i y (a + 1) hq hi hlead hc.next
    omega

/-- An operand that was cut out: its blocks lead to the terminator of its last block if its
truth decides the operator after it, and to the next block otherwise. They lead nowhere else. -/
theorem returns_operandTerm (hi : Sound V s top inner) (hs : Span s top body t)
    (hc : Cut s body t a b y z f) (hsealed : Sealed s body a) (hx : body[a]? = some x)
    (hside : Side s t z k) (hg : Grows s w.store)
    (h : Returns (operandTerm inner (between body a b) (if k then .or else .and) z y t) w term w') :
    Grows w.store w'.store ∧
      (∀ q i g, a ≤ q → q < b → body[q]? = some i → FailsTo s i g →
        g = f ∨ ∃ j, j ≤ b ∧ body[j]? = some g) ∧
      ∀ v : Valuation V, ∃ u, TermDenotes w'.store v term u ∧
        ∀ u', TransGen (BlockStep s v top (between body a b)) (x,
          u') (if v.isTrue u = k then f else y, u) := by
  have hlt := hc.lt
  have hlen : b < body.length := (List.getElem?_eq_some_iff.mp hc.next).1
  have hfirst : (between body a b)[0]? = some x := by
    rw [between_getElem?, if_pos (by omega)]; exact hx
  have hlast : (between body a b).getLast? = some z := by
    rw [between_getLast? hlt (Nat.le_of_lt hlen), hc.last]
  by_cases hone : b = a + 1
  · subst hone
    obtain rfl : x = z := Option.some.inj (hx.symm.trans hc.last)
    have hbetween : between body a (a + 1) = [x] := by
      refine List.ext_getElem? fun p => ?_
      rw [between_getElem?]
      cases p with
      | zero => simpa using hx
      | succ p => rw [if_neg (by omega)]; rfl
    rw [hbetween] at h ⊢
    obtain ⟨hg', hv⟩ := returns_operandTerm_single (V := V) hs hc hsealed hside hg h
    refine ⟨hg', fun q i g hq hqb => hc.leads_within (k := k) hs (fun q _ _ hq => ?_) hq hqb, fun v => ?_⟩
    · rw [hbetween, List.length_singleton] at hq
      omega
    · obtain ⟨u, hu, hstep⟩ := hv v
      exact ⟨u, hu, fun u' => .single (hstep u')⟩
  · obtain ⟨f', hr, -⟩ := hs.rung (b - 1) z y hc.last (by rw [Nat.sub_add_cancel (by omega), hc.next])
    obtain rfl := hc.leads.det hr.leads
    unfold operandTerm at h
    rw [if_neg (by rw [length_between (Nat.le_of_lt hlen)]; simp; omega)] at h
    obtain ⟨t', w1, ht', rest⟩ := h.bind
    obtain ⟨rfl, rfl⟩ := hr.returns_operandTerminators hg ht'
    obtain ⟨r, w2, hrun, ret⟩ := Returns.bind rest
    obtain ⟨rfl, rfl⟩ := ret.pure
    have hne : f ≠ y := fun he => hs.outside f hc.ends (he ▸ List.mem_of_getElem? hc.next)
    obtain ⟨hg', hwithin, hv⟩ := hi _ _ _ _ _ _ _ _ _ (hc.span hs hsealed hside) hfirst hlast hr
      ((hs.suits hc hside).2 (b - 1) z (by omega) (by omega) hc.last hc.leads) hne hg hrun
    refine ⟨hg', fun q i g hq hqb => hc.leads_within hs hwithin hq hqb, fun v => ?_⟩
    obtain ⟨p, u, hp, hu, hsteps⟩ := hv v
    exact ⟨u, .chain (.leaf hp) hu, hsteps⟩

end

end LuaLift.Proofs
