import LuaLift.Proofs.ShortCircuit

/-! # Operands that are joined

A condition is taken apart by looking where its blocks lead, and there `(a and b) and c` is the
same as `a and (b and c)`. So operands of one operator are joined first (`Condition.joined`).
Which operands then can be told apart is said by `Condition.isClear`: an operand of several blocks
is seen at its first block if that leads behind the operand, and otherwise it has to end where the
first blocks that lead out of it end. -/
namespace LuaLift.Proofs
open Tree Flow

namespace Condition

/-! ## Joining operands -/

/-- A condition as the right operand of what is before it. -/
def prepend (op : Connective) : Condition → Condition → Condition
  | .test c, right => .join op (.test c) right
  | .join op' l r, right =>
    if op' = op then .join op l (r.prepend op right) else .join op (.join op' l r) right

/-- The condition with `(a op b) op c` turned into `a op (b op c)` everywhere. -/
def joined : Condition → Condition
  | .test c => .test c
  | .join op l r => l.joined.prepend op r.joined

def root : Condition → Option Connective
  | .test _ => none
  | .join op _ _ => some op

/-- No left operand has the operator that it is an operand of. -/
def IsJoined : Condition → Prop
  | .test _ => True
  | .join op l r => l.root ≠ some op ∧ l.IsJoined ∧ r.IsJoined

variable {op around : Connective} {l r t : Condition}

theorem size_prepend : (l.prepend op r).size = l.size + r.size := by
  induction l with
  | test => rfl
  | join op' a b _ ih =>
    unfold prepend
    split
    · rw [size, ih, size, Nat.add_assoc]
    · rfl

theorem size_joined : t.joined.size = t.size := by
  induction t with
  | test => rfl
  | join op l r ihl ihr => rw [joined, size_prepend, ihl, ihr, size]

theorem IsJoined.prepend (hl : l.IsJoined) (hr : r.IsJoined) : (l.prepend op r).IsJoined := by
  induction l with
  | test => exact ⟨nofun, trivial, hr⟩
  | join op' a b _ ih =>
    unfold Condition.prepend
    split
    · rename_i he
      exact ⟨he ▸ hl.1, hl.2.1, ih hl.2.2⟩
    · rename_i hne
      exact ⟨fun he => hne (Option.some.inj he), hl, hr⟩

theorem isJoined_joined : t.joined.IsJoined := by
  induction t with
  | test => trivial
  | join op l r ihl ihr => exact ihl.prepend ihr

/-! ## What can be told apart -/

def isPlain : Condition → Bool
  | .test _ => true
  | .join .. => false

/-- The first operand is a comparison. -/
def startsPlain : Condition → Bool
  | .test _ => true
  | .join _ l _ => l.isPlain

/-- All operands are comparisons and all operators are `op`. -/
def allPlain (op : Connective) : Condition → Bool
  | .test _ => true
  | .join op' l r => op' = op && l.isPlain && r.allPlain op

/-- Once a comparison decides a condition that is an operand of `op`, all after it do. -/
def endsEvenly (op : Connective) : Condition → Bool
  | .test _ => true
  | .join op' l r => if op' = op then l.endsEvenly op && r.allPlain op else r.endsEvenly op

/-- Each operand can be told from those after it. -/
def isClear : Condition → Bool
  | .test _ => true
  | .join op l r => (l.startsPlain || l.endsEvenly op) && l.isClear && r.isClear

/-- The number of comparisons before the first one that decides an operand of `op`. -/
def lead (op : Connective) : Condition → Nat
  | .test _ => 0
  | .join op' l r => if op' = op then l.lead op else l.size + r.lead op

/-- An operand and the comparisons that follow it as operands of the same operator. -/
def extend (op : Connective) (l : Condition) : Condition → Condition
  | .join op' (.test c) r => if op' = op then .join op l (extend op (.test c) r) else l
  | _ => l

/-- What comes after the operands that `extend` takes. -/
def remaining (op : Connective) : Condition → Condition
  | .join op' (.test c) r => if op' = op then r.remaining op else .join op' (.test c) r
  | t => t

theorem lead_lt (op : Connective) (t : Condition) : t.lead op < t.size := by
  induction t with
  | test => exact Nat.one_pos
  | join op' l r ihl ihr =>
    rw [lead, size]
    split <;> omega

theorem lead_pos (hroot : t.root ≠ some op) (ht : t.isPlain = false) : 0 < t.lead op := by
  cases t with
  | test => cases ht
  | join op' l r =>
    rw [lead, if_neg fun he => hroot (congrArg some he)]
    exact Nat.add_pos_left l.size_pos _

theorem size_extend (op : Connective) (l r : Condition) :
    (l.extend op r).size + (r.remaining op).size = l.size + r.size := by
  fun_induction extend op l r with
  | case1 l c r ih =>
    rw [remaining, if_pos rfl, size, Nat.add_assoc, ih]
    rfl
  | case2 l op' c r hne => rw [remaining, if_neg hne]
  | case3 l r hne =>
    rw [remaining]
    exact hne

theorem allPlain_of_isPlain (h : l.isPlain = true) : l.allPlain op = true := by
  cases l with
  | test => rfl
  | join => cases h

theorem allPlain_extend (h : l.isPlain = true) : (extend op l r).allPlain op = true := by
  fun_induction extend op l r with
  | case1 l c r ih => simp [allPlain, h, ih rfl]
  | case2 | case3 => exact allPlain_of_isPlain h

theorem endsEvenly_extend (h : l.endsEvenly op = true) : (extend op l r).endsEvenly op = true := by
  unfold extend
  split
  · split
    · rw [endsEvenly, if_pos rfl, h, allPlain_extend rfl]
      rfl
    · exact h
  · exact h

theorem lead_extend : (l.extend op r).lead op = l.lead op := by
  unfold extend
  split
  · split
    · rw [lead, if_pos rfl]
    · rfl
  · rfl

theorem lead_lt_extend (op : Connective) (l r : Condition) : l.lead op < (l.extend op r).size := by
  have := lead_lt op (l.extend op r)
  rwa [lead_extend] at this

theorem IsJoined.extend (hroot : l.root ≠ some op) (hl : l.IsJoined) (hr : r.IsJoined) :
    (extend op l r).IsJoined ∧ (r.remaining op).IsJoined := by
  fun_induction Condition.extend op l r with
  | case1 l c r ih =>
    obtain ⟨h, h'⟩ := ih nofun trivial hr.2.2
    rw [remaining, if_pos rfl]
    exact ⟨⟨hroot, hl, h⟩, h'⟩
  | case2 l op' c r hne =>
    rw [remaining, if_neg hne]
    exact ⟨hl, hr⟩
  | case3 l r hne =>
    rw [remaining]
    · exact ⟨hl, hr⟩
    · exact hne

theorem isClear_remaining : (r.remaining op).isClear = r.isClear := by
  fun_induction remaining op r with
  | case1 c r ih => simp [ih, isClear, startsPlain]
  | case2 | case3 => rfl

theorem isClear_extend (h : (l.startsPlain || l.endsEvenly op) = true) :
    (extend op l r).isClear = l.isClear := by
  fun_induction extend op l r with
  | case1 l c r ih => rw [isClear, h, ih rfl, isClear, Bool.true_and, Bool.and_true]
  | case2 | case3 => rfl

/-! ## Where the blocks lead -/

/-- The blocks from position `p` on are those of an operand of `around`: a comparison that decides
`around` leads to `far`, others to the block after the condition or to one of its own blocks. `J`
tells where the block at a position leads when its test fails. -/
def LiesAt (J : Nat → Nat → Prop) : Condition → Connective → Nat → Nat → Prop
  | .test _, _, far, p => J p far
  | .join op l r, around, far, p =>
    l.LiesAt J op (if op = around then far else p + (l.size + r.size)) p ∧ r.LiesAt J around far (p + l.size)

variable {J : Nat → Nat → Prop} {p far k : Nat}

theorem LiesAt.prepend (hl : l.LiesAt J op (if op = around then far else p + (l.size + r.size)) p)
    (hr : r.LiesAt J around far (p + l.size)) : (l.prepend op r).LiesAt J around far p := by
  induction l generalizing p with
  | test => exact ⟨hl, hr⟩
  | join op' a b _ ih =>
    unfold Condition.prepend
    split
    · rename_i he
      subst he
      rw [LiesAt, if_pos rfl, size] at hl
      rw [size, ← Nat.add_assoc] at hr
      refine ⟨?_, ih ?_ hr⟩
      · rw [size_prepend, ← Nat.add_assoc a.size]
        exact hl.1
      · simpa only [Nat.add_assoc] using hl.2
    · exact ⟨hl, hr⟩

theorem LiesAt.joined (h : t.LiesAt J around far p) : t.joined.LiesAt J around far p := by
  induction t generalizing around far p with
  | test => exact h
  | join op l r ihl ihr =>
    refine LiesAt.prepend ?_ ?_
    · rw [size_joined, size_joined]
      exact ihl h.1
    · rw [size_joined]
      exact ihr h.2

theorem LiesAt.leads (h : t.LiesAt J around far p) (hk : k < t.size) :
    ∃ j, J (p + k) j ∧ (p + k < j ∧ j ≤ p + t.size ∨ j = far) := by
  induction t generalizing around far p k with
  | test =>
    obtain rfl : k = 0 := by rw [size] at hk; omega
    exact ⟨far, h, .inr rfl⟩
  | join op l r ihl ihr =>
    rw [size] at hk ⊢
    by_cases hkl : k < l.size
    · obtain ⟨j, hj, hj'⟩ := ihl h.1 hkl
      refine ⟨j, hj, ?_⟩
      split at hj' <;> omega
    · obtain ⟨j, hj, hj'⟩ := ihr h.2 (k := k - l.size) (by omega)
      rw [show p + l.size + (k - l.size) = p + k by omega] at hj hj'
      exact ⟨j, hj, by omega⟩

theorem LiesAt.last (h : t.LiesAt J around far p) : J (p + t.size - 1) far := by
  induction t generalizing around far p with
  | test => exact h
  | join op l r _ ihr =>
    rw [size, ← Nat.add_assoc]
    exact ihr h.2

theorem LiesAt.allPlain (h : t.LiesAt J op far p) (ht : t.allPlain op = true) (hk : k < t.size) :
    J (p + k) far := by
  induction t generalizing p k with
  | test =>
    obtain rfl : k = 0 := by rw [size] at hk; omega
    exact h
  | join op' l r _ ihr =>
    simp only [Condition.allPlain, Bool.and_eq_true, decide_eq_true_eq] at ht
    obtain ⟨⟨rfl, hl⟩, hr⟩ := ht
    cases l with
    | join => cases hl
    | test c =>
      rw [LiesAt, if_pos rfl] at h
      cases k with
      | zero => exact h.1
      | succ k =>
        have := ihr h.2 hr (k := k) (by simp only [size] at hk; omega)
        rwa [size, Nat.add_assoc, Nat.add_comm 1] at this

theorem LiesAt.beforeLead (h : t.LiesAt J op far p) (hk : k < t.lead op) :
    ∃ j, J (p + k) j ∧ p + k < j ∧ j ≤ p + t.size := by
  induction t generalizing p k with
  | test => cases hk
  | join op' l r ihl ihr =>
    rw [lead] at hk
    rw [size]
    split at hk
    · rename_i he
      subst he
      rw [LiesAt, if_pos rfl] at h
      obtain ⟨j, hj, hj'⟩ := ihl h.1 hk
      exact ⟨j, hj, by omega⟩
    · rename_i hne
      rw [LiesAt, if_neg hne] at h
      by_cases hkl : k < l.size
      · obtain ⟨j, hj, hj'⟩ := h.1.leads hkl
        exact ⟨j, hj, by omega⟩
      · obtain ⟨j, hj, hj'⟩ := ihr h.2 (k := k - l.size) (by omega)
        rw [show p + l.size + (k - l.size) = p + k by omega] at hj hj'
        exact ⟨j, hj, by omega⟩

/-- Where a condition ends evenly, all blocks from the first one that decides on do. -/
theorem LiesAt.fromLead (h : t.LiesAt J op far p) (ht : t.endsEvenly op = true) (hk : t.lead op ≤ k)
    (hk' : k < t.size) :
    J (p + k) far := by
  induction t generalizing p k with
  | test =>
    obtain rfl : k = 0 := by rw [size] at hk'; omega
    exact h
  | join op' l r ihl ihr =>
    rw [lead] at hk
    rw [size] at hk'
    rw [endsEvenly] at ht
    split at hk
    · rename_i he
      subst he
      rw [LiesAt, if_pos rfl] at h
      rw [if_pos rfl, Bool.and_eq_true] at ht
      by_cases hkl : k < l.size
      · exact ihl h.1 ht.1 hk hkl
      · have := h.2.allPlain ht.2 (k := k - l.size) (by omega)
        rwa [show p + l.size + (k - l.size) = p + k by omega] at this
    · rename_i hne
      rw [if_neg hne] at ht
      have := ihr h.2 ht (k := k - l.size) (by omega) (by omega)
      rwa [show p + l.size + (k - l.size) = p + k by omega] at this

theorem LiesAt.first (h : t.LiesAt J around far p) (ht : t.IsJoined) (hroot : t.root ≠ some around)
    (hplain : t.isPlain = false) : ∃ j j', J p j ∧ p < j ∧ J (j - 1) j' ∧
      if t.startsPlain = true then j = p + t.size ∧ j' = far else j < p + t.size ∧ j' ≤ p + t.size := by
  induction t generalizing around far p with
  | test => cases hplain
  | join op l r ihl _ =>
    have hne : op ≠ around := fun he => hroot (congrArg some he)
    have hlast := h.last
    rw [LiesAt, if_neg hne] at h
    rw [size] at hlast ⊢
    have hr := r.size_pos
    cases l with
    | test c => exact ⟨_, far, h.1, by omega, hlast, by simp [startsPlain, isPlain, size]⟩
    | join op' a b =>
      obtain ⟨j, j', hj, hpj, hj', hends⟩ := ihl h.1 ht.2.1 ht.1 rfl
      refine ⟨j, j', hj, hpj, hj', ?_⟩
      rw [if_neg (by simp [startsPlain, isPlain])]
      split at hends <;> omega

/-- Where not all operands are comparisons with the operator `op`, a block does not decide. -/
theorem LiesAt.notAllPlain (h : t.LiesAt J op far p) (hj : t.IsJoined) (ht : t.allPlain op = false) :
    ∃ m < t.size, (∀ k < m, J (p + k) far) ∧ ∃ j, J (p + m) j ∧ j ≤ p + t.size := by
  induction t generalizing p with
  | test => cases ht
  | join op' l r _ ihr =>
    have hpos' := l.size_pos
    by_cases he : op' = op
    · subst he
      rw [LiesAt, if_pos rfl] at h
      cases l with
      | test c =>
        obtain ⟨m, hm, hrun, j, hj', hle⟩ := ihr h.2 hj.2.2 (by simpa [Condition.allPlain, isPlain] using ht)
        refine ⟨m + 1, by simp only [size]; omega, fun k hk => ?_, j, ?_, by simp only [size] at hle ⊢; omega⟩
        · cases k with
          | zero => exact h.1
          | succ k =>
            have := hrun k (by omega)
            rwa [size, Nat.add_assoc, Nat.add_comm 1] at this
        · rwa [size, Nat.add_assoc, Nat.add_comm 1] at hj'
      | join op'' a b =>
        obtain ⟨j, j', hj', -, -, hends⟩ := h.1.first hj.2.1 hj.1 rfl
        refine ⟨0, by rw [size]; omega, by simp, j, hj', ?_⟩
        rw [size]
        split at hends <;> omega
    · rw [LiesAt, if_neg he] at h
      obtain ⟨j, hj', hle⟩ := h.1.leads hpos'
      exact ⟨0, by rw [size]; omega, by simp, j, hj', by rw [size]; omega⟩

theorem LiesAt.notEven (h : t.LiesAt J op far p) (hj : t.IsJoined) (ht : t.endsEvenly op = false) :
    ∃ m < t.size, t.lead op < m ∧ (∀ k, t.lead op ≤ k → k < m → J (p + k) far) ∧
      ∃ j, J (p + m) j ∧ j ≤ p + t.size := by
  induction t generalizing p with
  | test => cases ht
  | join op' l r ihl ihr =>
    rw [endsEvenly] at ht
    rw [lead, size]
    split at ht
    · rename_i he
      subst he
      rw [LiesAt, if_pos rfl] at h
      rw [if_pos rfl]
      cases hl : l.endsEvenly op' with
      | false =>
        obtain ⟨m, hm, hlead, hrun, j, hj', hle⟩ := ihl h.1 hj.2.1 hl
        exact ⟨m, by omega, hlead, hrun, j, hj', by omega⟩
      | true =>
        rw [hl, Bool.true_and] at ht
        obtain ⟨m, hm, hrun, j, hj', hle⟩ := h.2.notAllPlain hj.2.2 ht
        have hlead := lead_lt op' l
        refine ⟨l.size + m, by omega, by omega, fun k hk hk' => ?_, j, by rwa [← Nat.add_assoc], by omega⟩
        by_cases hkl : k < l.size
        · exact h.1.fromLead hl hk hkl
        · have := hrun (k - l.size) (by omega)
          rwa [show p + l.size + (k - l.size) = p + k by omega] at this
    · rename_i hne
      rw [if_neg hne]
      obtain ⟨m, hm, hlead, hrun, j, hj', hle⟩ := ihr h.2 hj.2.2 ht
      refine ⟨l.size + m, by omega, by omega, fun k hk hk' => ?_, j, by rwa [← Nat.add_assoc], by omega⟩
      have := hrun (k - l.size) (by omega) (by omega)
      rwa [show p + l.size + (k - l.size) = p + k by omega] at this

theorem LiesAt.extend (hl : l.LiesAt J op (if op = around then far else p + (l.size + r.size)) p)
    (hr : r.LiesAt J around far (p + l.size)) :
    (extend op l r).LiesAt J op (if op = around then far else p + (l.size + r.size)) p ∧
      (r.remaining op).LiesAt J around far (p + (extend op l r).size) := by
  fun_induction Condition.extend op l r generalizing p with
  | case1 l c r ih =>
    rw [remaining, if_pos rfl]
    rw [LiesAt] at hr
    have hend : p + (l.size + (join op (.test c) r).size) =
        p + l.size + ((Condition.test c).size + r.size) := by
      simp only [size]
      omega
    rw [hend] at hl ⊢
    obtain ⟨h, h'⟩ := ih hr.1 hr.2
    refine ⟨⟨?_, h⟩, ?_⟩
    · rwa [if_pos rfl]
    · rwa [size, ← Nat.add_assoc]
  | case2 l op' c r hne =>
    rw [remaining, if_neg hne]
    exact ⟨hl, hr⟩
  | case3 l r hne =>
    rw [remaining]
    · exact ⟨hl, hr⟩
    · exact hne

/-- After the operands that are taken together comes a block that leads elsewhere, if it is not the last. -/
theorem LiesAt.remaining_first (hj : r.IsJoined) (h : (r.remaining op).LiesAt J around far p)
    (hfar : p + (r.remaining op).size < far) (hrest : (r.remaining op).isPlain = false) :
    ∃ j ≤ far, J p j ∧ j ≠ (if op = around then far else p + (r.remaining op).size) := by
  fun_induction Condition.remaining op r with
  | case1 c r ih => exact ih hj.2.2 h hfar hrest
  | case2 op' c r hne =>
    rw [size] at hfar ⊢
    refine ⟨_, ?_, h.1, ?_⟩
    · split <;> omega
    · cases op <;> cases op' <;> cases around <;> simp_all <;> omega
  | case3 r hne =>
    cases r with
    | test => cases hrest
    | join op' l r =>
      cases l with
      | test c => exact (hne op' c r rfl).elim
      | join op'' a b =>
        obtain ⟨j, j', hj', -, -, hends⟩ := h.1.first hj.2.1 hj.1 rfl
        have := r.size_pos
        simp only [size] at hends hfar ⊢
        refine ⟨j, ?_, hj', ?_⟩
        · split at hends <;> omega
        · split at hends <;> split <;> omega

end Condition

end LuaLift.Proofs
