import LuaLift.Flow.Condition
import LuaLift.Proofs.Meaning

/-! # Runs of tests

A condition in bytecode is a run of blocks that each test one thing and go on with the
next block or jump ahead (`Ladder`). `Walk` follows the tests under a valuation until it
leaves the run. The steps that look at the blocks of such a run find what the run says,
also after the store has grown. -/
namespace LuaLift.Proofs
open Tree Flow

def IsBlock (s : Store) (i : NodeId) : Prop := ∃ b, s.node i = .block b

/-- The index of a block. -/
def blockIndex (s : Store) (i : NodeId) : Int :=
  match s.node i with
  | .block b => b.index
  | _ => 0

/-- Block `i` has no statements and ends in a test. -/
def Tests (s : Store) (i condition onTrue onFalse : NodeId) : Prop :=
  ∃ b slot, s.node i = .block b ∧ b.contents = [] ∧
    s.node b.exit = .test condition onTrue onFalse slot

/-- The way that the tests of `body` take from a block to the first one outside. -/
inductive Walk {V : Type} [LinearOrder V] (s : Store) (v : Valuation V) (body : List NodeId) :
    NodeId → NodeId → Prop
  | out {i} : i ∉ body → Walk s v body i i
  | step {i j c t f x} : i ∈ body → Tests s i c t f → Denotes s v c x →
      Walk s v body (if v.isTrue x then t else f) j → Walk s v body i j

/-- A run of tests: each leads to the next block if it holds, the last one to `yes`, and
to a later block or to one of `yes` and `no` if it fails. -/
structure Ladder (s : Store) (body : List NodeId) (yes no : NodeId) : Prop where
  missing : s.node .absent = .absent
  nonempty : body ≠ []
  ordered : body.Pairwise fun i j => blockIndex s i < blockIndex s j
  yesBlock : IsBlock s yes
  noBlock : IsBlock s no
  distinct : yes ≠ no
  yesOutside : yes ∉ body
  noOutside : no ∉ body
  rung : ∀ k i, body[k]? = some i → ∃ c f, Tests s i c (body[k + 1]?.getD yes) f ∧ IsTest s c ∧
    (f = yes ∨ f = no ∨ ∃ j, k < j ∧ body[j]? = some f)

section
variable {V : Type} [LinearOrder V] {s : Store} {v : Valuation V} {body : List NodeId}

theorem Tests.isBlock {i c t f : NodeId} (h : Tests s i c t f) : IsBlock s i := by
  obtain ⟨b, _, hb, _⟩ := h
  exact ⟨b, hb⟩

theorem Tests.det {i c t f c' t' f' : NodeId} (h : Tests s i c t f) (h' : Tests s i c' t' f') :
    c = c' ∧ t = t' ∧ f = f' := by
  obtain ⟨b, _, hb, _, he⟩ := h
  obtain ⟨b', _, hb', _, he'⟩ := h'
  rw [hb] at hb'; cases hb'
  rw [he] at he'; cases he'
  exact ⟨rfl, rfl, rfl⟩

theorem Walk.det {i j j' : NodeId} (h : Walk s v body i j) (h' : Walk s v body i j') : j = j' := by
  induction h with
  | out hi =>
    cases h' with
    | out _ => rfl
    | step hi' => exact absurd hi' hi
  | step hi ht hx _ ih =>
    cases h' with
    | out hi' => exact absurd hi hi'
    | step _ ht' hx' hw' =>
      obtain ⟨rfl, rfl, rfl⟩ := ht.det ht'
      obtain rfl := hx.det hx'
      exact ih hw'

theorem Walk.append {inner : List NodeId} {i j k : NodeId} (h : Walk s v inner i j)
    (hsub : ∀ x ∈ inner, x ∈ body) (h' : Walk s v body j k) : Walk s v body i k := by
  induction h with
  | out _ => exact h'
  | step hi ht hx _ ih => exact .step (hsub _ hi) ht hx (ih h')

end

/-! ## Exits of blocks -/

/-- The exit of block `i`. -/
def HasExit (s : Store) (i : NodeId) (e : Node) : Prop := ∃ b, s.node i = .block b ∧ s.node b.exit = e

/-- Where block `i` leads if its test fails, or always. -/
inductive FailsTo (s : Store) (i : NodeId) : NodeId → Prop
  | test {c n f slot} : HasExit s i (.test c n f slot) → FailsTo s i f
  | jump {kind f closes} : HasExit s i (.jump kind f closes) → FailsTo s i f

/-- Block `i` only assigns the value `e` and goes on at `j`. -/
def Assigns (s : Store) (i e j : NodeId) : Prop :=
  ∃ b a assignment es ds list rest kind closes, s.node i = .block b ∧ b.contents = [a] ∧
    s.node a = .assignment assignment es ds ∧ s.node es = .list list (e :: rest) ∧
    s.node b.exit = .jump kind j closes

/-- Whether an exit counts as inverted. -/
def inverted (s : Store) (t : Terminators) : Node → Bool
  | .jump _ target _ => target == t.stop
  | .test c _ f _ => f == t.yes || f == t.stop &&
      match s.node c with
      | .unary op _ => op == .not
      | _ => false
  | _ => false

section
variable {s : Store} {i e j c n f : NodeId} {w w' : Work Unit}

theorem IsBlock.ne_absent (h : IsBlock s i) (hm : s.node .absent = .absent) : i ≠ .absent := by
  rintro rfl
  obtain ⟨b, hb⟩ := h
  rw [hm] at hb; cases hb

theorem Tests.exits (h : Tests s i c n f) : ∃ slot, HasExit s i (.test c n f slot) := by
  obtain ⟨b, slot, hb, -, he⟩ := h
  exact ⟨slot, b, hb, he⟩

theorem HasExit.det {x y : Node} (h : HasExit s i x) (h' : HasExit s i y) : x = y := by
  obtain ⟨b, hb, rfl⟩ := h
  obtain ⟨b', hb', rfl⟩ := h'
  rw [hb] at hb'; cases hb'
  rfl

theorem HasExit.isBlock {x : Node} (h : HasExit s i x) : IsBlock s i := by
  obtain ⟨b, hb, -⟩ := h
  exact ⟨b, hb⟩

theorem FailsTo.det (h : FailsTo s i f) (h' : FailsTo s i j) : f = j := by
  cases h with
  | test h => cases h' with
    | test h' => cases h.det h'; rfl
    | jump h' => cases h.det h'
  | jump h => cases h' with
    | test h' => cases h.det h'
    | jump h' => cases h.det h'; rfl

theorem Assigns.exits (h : Assigns s i e j) : ∃ kind closes, HasExit s i (.jump kind j closes) := by
  obtain ⟨b, a, _, es, ds, _, _, kind, closes, hb, -, -, -, he⟩ := h
  exact ⟨kind, closes, b, hb, he⟩

theorem Assigns.leads (h : Assigns s i e j) : FailsTo s i j := by
  obtain ⟨_, _, h⟩ := h.exits
  exact .jump h

theorem Assigns.det {e' j' : NodeId} (h : Assigns s i e j) (h' : Assigns s i e' j') : e = e' := by
  obtain ⟨b, a, _, es, ds, _, _, _, _, hb, hc, ha, hes, -⟩ := h
  obtain ⟨b', a', _, es', ds', _, _, _, _, hb', hc', ha', hes', -⟩ := h'
  rw [hb] at hb'; cases hb'
  rw [hc] at hc'; cases hc'
  rw [ha] at ha'; cases ha'
  rw [hes] at hes'; cases hes'
  rfl

theorem HasExit.not_assigns {slot : Option Int} (h : HasExit s i (.test c n f slot)) : ¬ Assigns s i e j := by
  intro h'
  obtain ⟨_, _, h'⟩ := h'.exits
  cases h.det h'

/-! ## Steps that look at a block -/

theorem returns_exitNode {x y : Node} (hx : HasExit s i x) (hne : x ≠ .absent) (hg : Grows s w.store)
    (h : Returns (exitNode i) w y w') : y = x ∧ w = w' := by
  obtain ⟨b, hb, he⟩ := hx
  obtain ⟨b', w1, hb', rest⟩ := h.bind
  obtain ⟨hn, rfl⟩ := returns_block hb'
  rw [hg.node_eq hb nofun] at hn; cases hn
  obtain ⟨rfl, rfl⟩ := returns_node rest
  exact ⟨hg.node_eq he hne, rfl⟩

theorem returns_indexOf {k : Int} (hb : IsBlock s i) (hg : Grows s w.store)
    (h : Returns (indexOf i) w k w') : blockIndex s i = k ∧ w = w' := by
  obtain ⟨b, hb⟩ := hb
  obtain ⟨b', w1, hb', ret⟩ := h.bind
  obtain ⟨hn, rfl⟩ := returns_block hb'
  rw [hg.node_eq hb nofun] at hn; cases hn
  obtain ⟨rfl, rfl⟩ := ret.pure
  exact ⟨by simp [blockIndex, hb], rfl⟩

theorem returns_targetOfBlock (hf : FailsTo s i f) (hg : Grows s w.store)
    (h : Returns (targetOfBlock i) w j w') : f = j ∧ w = w' := by
  obtain ⟨y, w1, he, rest⟩ := h.bind
  cases hf with
  | test hx | jump hx =>
    obtain ⟨rfl, rfl⟩ := returns_exitNode hx nofun hg he
    exact rest.pure

theorem returns_lastValue {r : Option NodeId} (hx : Assigns s i e j) (hg : Grows s w.store)
    (h : Returns (lastValue? i) w r w') : r = some e ∧ w = w' := by
  obtain ⟨b, a, _, es, ds, _, rest, _, _, hb, hc, ha, hes, -⟩ := hx
  obtain ⟨xs, w1, h1, h⟩ := h.bind
  obtain ⟨hxs, rfl, -⟩ := items_inv h1
  rw [hg.node_eq hb nofun] at hxs
  obtain rfl : xs = [a] := hxs.symm.trans hc
  obtain ⟨x, w2, h2, h⟩ := Returns.bind h
  rw [List.getLast_singleton] at h2
  replace h2 := h2.atNode
  rw [hg.node_eq ha nofun] at h2
  obtain ⟨ys, w3, h3, h4⟩ := Returns.bind h2
  obtain ⟨hys, rfl, -⟩ := items_inv h3
  rw [hg.node_eq hes nofun] at hys
  obtain rfl : ys = e :: rest := hys.symm
  obtain ⟨rfl, rfl⟩ := h4.pure
  obtain ⟨rfl, rfl⟩ := h.pure
  exact ⟨rfl, rfl⟩

theorem returns_isInverted {t : Terminators} {slot : Option Int} {b : Bool} (hc : IsTest s c)
    (hg : Grows s w.store) (h : Returns (isInverted (.test c n f slot) t) w b w') :
    b = inverted s t (.test c n f slot) ∧ w = w' := by
  unfold isInverted at h
  dsimp only at h
  simp only [inverted]
  split at h
  · rename_i hy
    obtain ⟨rfl, rfl⟩ := h.pure
    exact ⟨by rw [hy]; rfl, rfl⟩
  · rename_i hy
    rw [eq_false_of_ne_true hy, Bool.false_or]
    split at h
    · rename_i hs
      replace h := h.atNode
      rw [hs, Bool.true_and]
      cases hc with
      | compare hn => rw [hg.node_eq hn nofun] at h; exact h.throw.elim
      | plain hn | not hn =>
        rw [hg.node_eq hn nofun] at h
        obtain ⟨rfl, rfl⟩ := h.pure
        rw [hn]
        exact ⟨rfl, rfl⟩
    · rename_i hs
      obtain ⟨rfl, rfl⟩ := h.pure
      rw [eq_false_of_ne_true hs]
      exact ⟨rfl, rfl⟩

theorem returns_positionOf {xs : List NodeId} {k : Nat} (h : Returns (positionOf xs i) w k w') :
    xs[k]? = some i ∧ w = w' := by
  unfold positionOf at h
  split at h
  · rename_i k' hk
    obtain ⟨rfl, rfl⟩ := h.pure
    obtain ⟨hlt, hget, -⟩ := List.idxOf?_eq_some_iff.mp hk
    exact ⟨by rw [List.getElem?_eq_getElem hlt, hget], rfl⟩
  · exact h.throw.elim

end

end LuaLift.Proofs
