import LuaLift.Proofs.Conditions

/-! # Conditions and the blocks that test them

A condition is a tree of `and` and `or` over comparisons. Short-circuit evaluation makes a run
of blocks of it, one for each comparison, that leads to one of two exits (`CompiledAt`). Following
the blocks gives the truth of the tree (`CompiledAt.walk`), so an expression that is recovered from
them has the truth of the tree as well (`ShortCircuit.agrees`). -/
namespace LuaLift.Proofs
open Tree Flow

/-! ## Conditions -/

inductive Connective where
  | and | or
deriving DecidableEq, Repr

/-- A comparison of variables or constants. -/
structure Comparison where
  op : BinaryOp
  left : Node
  right : Node
  compares : isComparison op = true
  leftOperand : IsOperand left
  rightOperand : IsOperand right

inductive Condition where
  | test (c : Comparison)
  | join (op : Connective) (left right : Condition)

/-- The number of comparisons. -/
def Condition.size : Condition → Nat
  | .test _ => 1
  | .join _ l r => l.size + r.size

theorem Condition.size_pos (t : Condition) : 0 < t.size := by
  induction t with
  | test => exact Nat.one_pos
  | join op l r ihl _ => exact Nat.add_pos_left ihl _

/-- The comparison that holds when another fails. -/
def negated : BinaryOp → BinaryOp
  | .less => .greaterEqual
  | .greaterEqual => .less
  | .greater => .lessEqual
  | .lessEqual => .greater
  | .equal => .notEqual
  | .notEqual => .equal
  | op => op

variable {V : Type} {op : BinaryOp} {c : Comparison} {k : Nat} {i : NodeId}

theorem isComparison_negated (h : isComparison op = true) : isComparison (negated op) = true := by
  cases op <;> first | rfl | cases h

theorem opposite_eq (h : isComparison op = true) : opposite op = .ok (negated op) := by
  cases op <;> first | rfl | cases h

def Comparison.negate (c : Comparison) : Comparison :=
  { c with op := negated c.op, compares := isComparison_negated c.compares }

section
variable {V : Type} [LinearOrder V]

def operandValue (v : Valuation V) : Node → V
  | .identifier x => v.ofVariable x
  | .constant k l => v.ofConstant k l
  | .primitive k => v.ofPrimitive k
  | _ => v.ofBool false

def Comparison.holds (v : Valuation V) (c : Comparison) : Bool :=
  (comparison c.op).any fun f => f (operandValue v c.left) (operandValue v c.right)

/-- The truth of a condition. -/
def Condition.holds (v : Valuation V) : Condition → Bool
  | .test c => c.holds v
  | .join .and l r => l.holds v && r.holds v
  | .join .or l r => l.holds v || r.holds v

theorem Comparison.holds_negate (v : Valuation V) (c : Comparison) : c.negate.holds v = !c.holds v := by
  obtain ⟨f, hf⟩ := comparison_of_isComparison (V := V) c.compares
  obtain ⟨g, hg, hneg⟩ := comparison_opposite hf (opposite_eq c.compares)
  simp only [Comparison.holds, Comparison.negate, hf, hg, Option.any_some, hneg]

end

/-! ## Blocks that test a condition -/

/-- Node `i` is the comparison. -/
def Comparison.IsAt (s : Store) (i : NodeId) (c : Comparison) : Prop :=
  ∃ l r, s.node i = .binary c.op l r ∧ s.node l = c.left ∧ s.node r = c.right

/-- The blocks from position `p` on test a condition: they lead to position `yes` if it holds and
to `no` if it fails. A comparison is kept where `yes` comes next, and its opposite where `no` does. -/
def Condition.CompiledAt (s : Store) (block : Nat → NodeId) : Condition → Nat → Nat → Nat → Prop
  | .test c, p, yes, no => ∃ i,
    if yes = p + 1 then c.IsAt s i ∧ Tests s (block p) i (block (p + 1)) (block no)
    else c.negate.IsAt s i ∧ Tests s (block p) i (block (p + 1)) (block yes)
  | .join .and l r, p, yes, no =>
    l.CompiledAt s block p (p + l.size) no ∧ r.CompiledAt s block (p + l.size) yes no
  | .join .or l r, p, yes, no =>
    l.CompiledAt s block p yes (p + l.size) ∧ r.CompiledAt s block (p + l.size) yes no

/-- Blocks in the order of their indices, up to position `last`. -/
structure InOrder (s : Store) (block : Nat → NodeId) (last : Nat) : Prop where
  missing : s.node .absent = .absent
  isBlock : ∀ k ≤ last, IsBlock s (block k)
  index_lt : ∀ i j, i < j → j ≤ last → blockIndex s (block i) < blockIndex s (block j)

/-- The blocks from position `a` up to `b`. -/
def segment (block : Nat → NodeId) (a b : Nat) : List NodeId := (List.range' a (b - a)).map block

/-- The blocks of a condition and its exits by their positions. -/
def placed (body : List NodeId) (yes no : NodeId) (k : Nat) : NodeId := (body ++ [yes, no]).getD k .absent

/-- A condition that was compiled to `body`, with `yes` right after it and `no` later on. -/
structure ShortCircuit (s : Store) (t : Condition) (body : List NodeId) (yes no : NodeId) : Prop where
  missing : s.node .absent = .absent
  length : body.length = t.size
  ordered : (body ++ [yes, no]).Pairwise fun i j => blockIndex s i < blockIndex s j
  yesBlock : IsBlock s yes
  noBlock : IsBlock s no
  compiled : t.CompiledAt s (placed body yes no) 0 t.size (t.size + 1)

section
variable {s : Store} {block : Nat → NodeId} {last p q a b yes no : Nat} {t : Condition}

@[simp] theorem length_segment : (segment block a b).length = b - a := by simp [segment]

theorem getElem?_segment : (segment block a b)[k]? = if a + k < b then some (block (a + k)) else none := by
  unfold segment
  rw [List.getElem?_map]
  split
  · rw [List.getElem?_range' (by omega), Nat.one_mul, Option.map_some]
  · rw [List.getElem?_eq_none (by rw [List.length_range']; omega), Option.map_none]

theorem mem_segment : i ∈ segment block a b ↔ ∃ k, a ≤ k ∧ k < b ∧ block k = i := by
  simp only [segment, List.mem_map, List.mem_range'_1]
  exact ⟨fun ⟨k, hk, he⟩ => ⟨k, hk.1, by omega, he⟩, fun ⟨k, h, h', he⟩ => ⟨k, ⟨h, by omega⟩, he⟩⟩

theorem InOrder.inj (h : InOrder s block last) {i j : Nat} (hi : i ≤ last) (hj : j ≤ last) :
    block i = block j ↔ i = j := by
  refine ⟨fun he => ?_, fun he => he ▸ rfl⟩
  rcases Nat.lt_trichotomy i j with hlt | heq | hlt
  · have := h.index_lt i j hlt hj
    rw [he] at this
    omega
  · exact heq
  · have := h.index_lt j i hlt hi
    rw [he] at this
    omega

theorem InOrder.notMem_segment (h : InOrder s block last) (hb : b ≤ q) (hq : q ≤ last) :
    block q ∉ segment block a b := by
  rw [mem_segment]
  rintro ⟨k, -, hk, he⟩
  rw [h.inj (by omega) hq] at he
  omega

theorem Comparison.IsAt.isTest (h : c.IsAt s i) : IsTest s i := by
  obtain ⟨l, r, hi, hl, hr⟩ := h
  exact .compare hi c.compares (hl ▸ c.leftOperand) (hr ▸ c.rightOperand)

theorem operandValue_denotes [LinearOrder V] (v : Valuation V) {n : Node} (hi : s.node i = n)
    (hn : IsOperand n) : Denotes s v i (operandValue v n) := by
  rcases hn with ⟨x, rfl⟩ | ⟨k, l, rfl⟩ | ⟨k, rfl⟩
  · exact .identifier hi
  · exact .constant hi
  · exact .primitive hi

theorem Comparison.IsAt.denotes [LinearOrder V] (v : Valuation V) (h : c.IsAt s i) :
    Denotes s v i (v.ofBool (c.holds v)) := by
  obtain ⟨l, r, hi, hl, hr⟩ := h
  obtain ⟨f, hf⟩ := comparison_of_isComparison (V := V) c.compares
  have hc := Denotes.compare hi hf (operandValue_denotes v hl c.leftOperand)
    (operandValue_denotes v hr c.rightOperand)
  simpa [Comparison.holds, hf] using hc

/-- Each block of a condition leads ahead, to a block of the same condition or to one of its exits. -/
theorem Condition.CompiledAt.leads (h : t.CompiledAt s block p yes no) (hyes : p + t.size ≤ yes)
    (hno : p + t.size ≤ no) (hk : p ≤ k) (hk' : k < p + t.size) :
    ∃ c j, Tests s (block k) c (block (k + 1)) (block j) ∧ IsTest s c ∧ k < j ∧
      (j < p + t.size ∨ j = yes ∨ j = no) := by
  induction t generalizing p yes no with
  | test c =>
    simp only [Condition.size] at hk' hyes hno ⊢
    obtain rfl : k = p := by omega
    obtain ⟨i, h⟩ := h
    split at h
    · exact ⟨i, no, h.2, h.1.isTest, by omega, .inr (.inr rfl)⟩
    · exact ⟨i, yes, h.2, h.1.isTest, by omega, .inr (.inl rfl)⟩
  | join op l r ihl ihr =>
    have hr := r.size_pos
    simp only [Condition.size] at hk' hyes hno ⊢
    by_cases hkl : k < p + l.size
    · cases op with
      | and =>
        obtain ⟨c, j, ht, hc, hj, hj'⟩ := ihl h.1 (by omega) (by omega) hk hkl
        exact ⟨c, j, ht, hc, hj, by omega⟩
      | or =>
        obtain ⟨c, j, ht, hc, hj, hj'⟩ := ihl h.1 (by omega) (by omega) hk hkl
        exact ⟨c, j, ht, hc, hj, by omega⟩
    · have hright : r.CompiledAt s block (p + l.size) yes no := by cases op <;> exact h.2
      obtain ⟨c, j, ht, hc, hj, hj'⟩ := ihr hright (by omega) (by omega) (by omega) (by omega)
      exact ⟨c, j, ht, hc, hj, by omega⟩

/-- Following the blocks of a condition leads to the exit that its truth says. -/
theorem Condition.CompiledAt.walk [LinearOrder V] (v : Valuation V) (hb : InOrder s block last)
    (h : t.CompiledAt s block p yes no) (hyes : p + t.size ≤ yes) (hno : p + t.size ≤ no)
    (hyes' : yes ≤ last) (hno' : no ≤ last) (hnear : yes = p + t.size ∨ no = p + t.size) :
    Walk s v (segment block p (p + t.size)) (block p) (block (if t.holds v then yes else no)) := by
  induction t generalizing p yes no with
  | test c =>
    obtain ⟨i, h⟩ := h
    simp only [Condition.size] at hyes hno hnear ⊢
    have hmem : block p ∈ segment block p (p + 1) := mem_segment.mpr ⟨p, by omega, by omega, rfl⟩
    have hout : ∀ {q}, p + 1 ≤ q → q ≤ last → Walk s v (segment block p (p + 1)) (block q) (block q) :=
      fun hq hq' => .out (hb.notMem_segment hq hq')
    split at h
    · rename_i hy
      subst hy
      refine .step hmem h.2 (h.1.denotes v) ?_
      rw [v.isTrue_ofBool, Condition.holds]
      by_cases hv : c.holds v = true
      · rw [if_pos hv, if_pos hv]
        exact hout (Nat.le_refl _) hyes'
      · rw [if_neg hv, if_neg hv]
        exact hout hno hno'
    · obtain rfl : no = p + 1 := by omega
      refine .step hmem h.2 (h.1.denotes v) ?_
      rw [v.isTrue_ofBool, Comparison.holds_negate, Condition.holds]
      by_cases hv : c.holds v = true
      · rw [if_pos hv, if_neg (by simp [hv])]
        exact hout hyes hyes'
      · rw [if_neg hv, if_pos (by simpa using hv)]
        exact hout (Nat.le_refl _) hno'
  | join op l r ihl ihr =>
    simp only [Condition.size] at hyes hno hnear ⊢
    have hsub : ∀ x ∈ segment block p (p + l.size), x ∈ segment block p (p + (l.size + r.size)) := by
      intro x hx
      obtain ⟨k, hk, hk', he⟩ := mem_segment.mp hx
      exact mem_segment.mpr ⟨k, hk, by omega, he⟩
    have hsub' : ∀ x ∈ segment block (p + l.size) (p + l.size + r.size),
        x ∈ segment block p (p + (l.size + r.size)) := by
      intro x hx
      obtain ⟨k, hk, hk', he⟩ := mem_segment.mp hx
      exact mem_segment.mpr ⟨k, by omega, by omega, he⟩
    have hout : ∀ {q}, p + (l.size + r.size) ≤ q → q ≤ last →
        Walk s v (segment block p (p + (l.size + r.size))) (block q) (block q) :=
      fun hq hq' => .out (hb.notMem_segment hq hq')
    have hright : r.CompiledAt s block (p + l.size) yes no := by cases op <;> exact h.2
    have hwalk : Walk s v (segment block p (p + (l.size + r.size))) (block (p + l.size))
        (block (if r.holds v then yes else no)) := by
      refine (ihr hright (by omega) (by omega) hyes' hno' (by omega)).append hsub' ?_
      split
      · exact hout hyes hyes'
      · exact hout hno hno'
    cases op with
    | and =>
      refine (ihl h.1 (by omega) (by omega) (by omega) hno' (by omega)).append hsub ?_
      rw [Condition.holds]
      by_cases hv : l.holds v = true
      · rw [if_pos hv, hv, Bool.true_and]
        exact hwalk
      · rw [if_neg hv, if_neg (by simp [hv])]
        exact hout hno hno'
    | or =>
      refine (ihl h.1 (by omega) (by omega) hyes' (by omega) (by omega)).append hsub ?_
      rw [Condition.holds]
      by_cases hv : l.holds v = true
      · rw [if_pos hv, if_pos (by simp [hv])]
        exact hout hyes hyes'
      · rw [if_neg hv, Bool.eq_false_iff.mpr hv, Bool.false_or]
        exact hwalk

end

/-! ## Recovered expressions -/

section
variable {s : Store} {t : Condition} {body : List NodeId} {yes no : NodeId}

theorem getElem?_placed (hk : k < body.length) : body[k]? = some (placed body yes no k) := by
  rw [placed, List.getD_eq_getElem?_getD, List.getElem?_append_left hk, List.getElem?_eq_getElem hk,
    Option.getD_some]

theorem placed_yes : placed body yes no body.length = yes := by simp [placed]

theorem placed_no : placed body yes no (body.length + 1) = no := by simp [placed]

theorem segment_placed : segment (placed body yes no) 0 body.length = body := by
  refine List.ext_getElem? fun k => ?_
  rw [getElem?_segment, Nat.zero_add]
  split
  · rename_i hk
    exact (getElem?_placed hk).symm
  · exact (List.getElem?_eq_none (by omega)).symm

section
variable (h : ShortCircuit s t body yes no)
include h

theorem ShortCircuit.atYes : placed body yes no t.size = yes :=
  h.length ▸ placed_yes

theorem ShortCircuit.atNo : placed body yes no (t.size + 1) = no :=
  h.length ▸ placed_no

theorem ShortCircuit.segment_eq : segment (placed body yes no) 0 t.size = body :=
  h.length ▸ segment_placed

theorem ShortCircuit.inOrder : InOrder s (placed body yes no) (t.size + 1) := by
  refine ⟨h.missing, fun k hk => ?_, fun i j hij hj => ?_⟩
  · rcases Nat.lt_or_ge k t.size with hlt | hge
    · obtain ⟨c, j, ht, -⟩ := h.compiled.leads (by omega) (by omega) (Nat.zero_le k) (by omega)
      exact ht.isBlock
    · rw [← h.length] at hk hge
      obtain rfl | rfl : k = body.length ∨ k = body.length + 1 := by omega
      · exact placed_yes ▸ h.yesBlock
      · exact placed_no ▸ h.noBlock
  · have hlen : (body ++ [yes, no]).length = t.size + 2 := by simp [h.length]
    have hget : ∀ k, k ≤ t.size + 1 → (body ++ [yes, no])[k]? = some (placed body yes no k) := by
      intro k hk
      rw [placed, List.getD_eq_getElem?_getD, List.getElem?_eq_getElem (by omega), Option.getD_some]
    exact ordered_lt h.ordered (hget i (by omega)) (hget j hj) hij

end

theorem Condition.CompiledAt.last {block : Nat → NodeId} {p yes no : Nat} (h : t.CompiledAt s block p yes no)
    (hyes : yes = p + t.size) : ∃ c, Tests s (block (p + t.size - 1)) c (block yes) (block no) := by
  subst hyes
  induction t generalizing p with
  | test c =>
    obtain ⟨i, h⟩ := h
    rw [Condition.size, if_pos rfl] at h
    exact ⟨i, h.2⟩
  | join op l r _ ihr =>
    have hright : r.CompiledAt s block (p + l.size) (p + l.size + r.size) no := by
      rw [Nat.add_assoc]
      cases op <;> exact h.2
    obtain ⟨c, hc⟩ := ihr hright
    rw [Condition.size, ← Nat.add_assoc]
    exact ⟨c, hc⟩

theorem ShortCircuit.ladder (h : ShortCircuit s t body yes no) : Ladder s body yes no := by
  have horder := h.inOrder
  have hpos := t.size_pos
  have hlen := h.length
  refine ⟨h.missing, ?_, h.ordered.sublist (List.sublist_append_left _ _), h.yesBlock, h.noBlock,
    ?_, ?_, ?_, ?_⟩
  · rintro rfl
    simp at hlen
    omega
  · intro he
    have := (horder.inj (i := t.size) (j := t.size + 1) (by omega) (by omega)).mp
      (by rw [h.atYes, h.atNo, he])
    omega
  · have := horder.notMem_segment (a := 0) (Nat.le_refl t.size) (by omega)
    rwa [h.atYes, h.segment_eq] at this
  · have := horder.notMem_segment (a := 0) (b := t.size) (Nat.le_succ _) (Nat.le_refl _)
    rwa [h.atNo, h.segment_eq] at this
  · intro k i hi
    have hk : k < body.length := (List.getElem?_eq_some_iff.mp hi).1
    obtain rfl : placed body yes no k = i := Option.some.inj ((getElem?_placed hk).symm.trans hi)
    obtain ⟨c, j, ht, hc, hj, hj'⟩ := h.compiled.leads (by omega) (by omega) (Nat.zero_le k) (by omega)
    have hnext : body[k + 1]?.getD yes = placed body yes no (k + 1) := by
      by_cases hk' : k + 1 < body.length
      · rw [getElem?_placed hk', Option.getD_some]
      · rw [List.getElem?_eq_none (by omega), show k + 1 = body.length by omega, placed_yes, Option.getD_none]
    refine ⟨c, placed body yes no j, hnext ▸ ht, hc, ?_⟩
    rcases hj' with hj' | rfl | rfl
    · exact .inr (.inr ⟨j, hj, getElem?_placed (by omega)⟩)
    · exact .inl h.atYes
    · exact .inr (.inl h.atNo)

/-- An expression that is recovered from the blocks of a condition has the truth of the condition. -/
theorem ShortCircuit.agrees {w w' : Work Unit} {e : NodeId} (h : ShortCircuit w.store t body yes no)
    (hrun : Returns (compile body ⟨.absent, yes, no⟩) w e w') [LinearOrder V] (v : Valuation V) :
    ∃ x, Denotes w'.store v e x ∧ v.isTrue x = t.holds v := by
  have horder := h.inOrder
  have hladder := h.ladder
  have hpos := t.size_pos
  have hlen := h.length
  obtain ⟨c, ht⟩ := h.compiled.last (Nat.zero_add _).symm
  rw [Nat.zero_add, h.atYes, h.atNo] at ht
  have hlast : body.getLast? = some (placed body yes no (t.size - 1)) := by
    rw [List.getLast?_eq_getElem?, getElem?_placed (by omega), hlen]
  obtain ⟨_, _, _, _, ht', -, hc⟩ := hladder.exits (List.mem_of_getLast? hlast)
  obtain ⟨rfl, rfl, rfl⟩ := ht.det ht'
  obtain ⟨y, hy⟩ := hc.denotes (v := v)
  have hfirst : body.head? = some (placed body yes no 0) := by
    rw [List.head?_eq_getElem?, getElem?_placed (by omega)]
  obtain ⟨x, j, hx, hfront, hj⟩ := hladder.returns_compile hfirst hlast ht (.inr rfl) v hy hrun
  refine ⟨x, hx, ?_⟩
  have hwalk : Walk w.store v body (placed body yes no 0) (if v.isTrue x then yes else no) := by
    refine hfront.append (fun u hu => (List.dropLast_sublist body).subset hu) ?_
    rcases hj with ⟨rfl, htrue⟩ | rfl
    · rw [beq_false_of_ne hladder.distinct.symm] at htrue
      exact .step (List.mem_of_getLast? hlast) ht hy (htrue ▸ .out hladder.terminator_outside)
    · exact .out hladder.terminator_outside
  -- Following the blocks ends in one place, so the two truths say the same exit.
  have hwalk' := h.compiled.walk v horder (by omega) (by omega) (by omega) (Nat.le_refl _)
    (.inl (Nat.zero_add _).symm)
  rw [Nat.zero_add, h.segment_eq] at hwalk'
  have hexit := hwalk.det hwalk'
  have hne := hladder.distinct
  have hyes := h.atYes
  have hno := h.atNo
  cases hx' : v.isTrue x <;> cases ht' : t.holds v <;> simp_all

end

end LuaLift.Proofs
