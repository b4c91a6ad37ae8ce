import LuaLift.Proofs.ConstructorFolding

/-! # Comparing variables

Variables are compared by their form, to a given depth. Of storage, ordinary constants and elements of
these the comparison always gives an answer and is an equivalence. A key of another kind, such as a
call or `true`, has nothing to be compared by, and a NaN equals nothing. -/
namespace LuaLift.Proofs
open Tree

/-- Constants that hold what their kind says. -/
inductive OrdinaryConstant : ConstantKind → Literal → Prop
  | integer n : OrdinaryConstant .integer (.number (.int n))
  | float {bits} : Text.Parts.ofBits bits ≠ .nan → OrdinaryConstant .float (.number (.double bits))
  | text t : OrdinaryConstant .text (.text t)
  | long n : OrdinaryConstant .cdata (.number (.int n))
  | complex {re im} : Text.Parts.ofBits re ≠ .nan → Text.Parts.ofBits im ≠ .nan →
      OrdinaryConstant .cdata (.pair (.double re) (.double im))

/-- A variable of at most so many levels, all of whose keys are variables or ordinary constants. -/
inductive Ordinary (s : Store) : Nat → NodeId → Prop
  | identifier {d i x} : s.node i = .identifier x → Ordinary s (d + 1) i
  | constant {d i k l} : s.node i = .constant k l → OrdinaryConstant k l → Ordinary s (d + 1) i
  | element {d i t k} : s.node i = .element t k → Ordinary s d t → Ordinary s d k → Ordinary s (d + 1) i

/-- What storage holds, what constants are, and what the elements of tables are. Numbers that are equal
are one value. -/
structure Contents (V : Type) where
  storage : IdentifierKind → Int → V
  constant : ConstantKind → Literal → V
  index : V → V → Option V
  constant_same : ∀ k l l', Literal.same l l' = true → constant k l = constant k l'

variable {s : Store} {V : Type} {d : Nat} {a b c : NodeId} {k : ConstantKind} {l l' l'' : Literal}
  {x y z : Number}

/-- The value of a variable of at most so many levels. -/
def Contents.value (σ : Contents V) (s : Store) : Nat → NodeId → Option V
  | 0, _ => none
  | depth + 1, i =>
    match s.node i with
    | .identifier x => some (σ.storage x.kind x.slot)
    | .constant k l => some (σ.constant k l)
    | .element t k => (σ.value s depth t).bind fun t => (σ.value s depth k).bind (σ.index t)
    | _ => none

theorem value_of_equalTo (σ : Contents V) (h : equalTo s d a b = .ok true) :
    σ.value s d a = σ.value s d b := by
  induction d generalizing a b with
  | zero => rfl
  | succ d ih =>
    rw [equalTo] at h
    rw [Contents.value, Contents.value]
    split at h
    · rename_i x y ha hb
      have hxy : x.kind = y.kind ∧ x.slot = y.slot := by simpa using h
      rw [ha, hb]
      simp only [hxy]
    · rename_i t k t' k' ha hb
      obtain ⟨same, ht, h⟩ := bind_eq_ok h
      cases same with
      | false => cases h
      | true =>
        rw [ha, hb]
        simp only [ih ht, ih h]
    · rename_i k l k' l' ha hb
      have hl : k = k' ∧ l.same l' = true := by simpa using h
      rw [ha, hb]
      simp only [hl.1, σ.constant_same _ _ _ hl.2]
    · split at h <;> cases h

/-! ## Constants -/

theorem double_same_iff {m n : UInt64} : Number.same (.double m) (.double n) = true ↔
    Text.Parts.ofBits m ≠ .nan ∧ Text.Parts.ofBits n ≠ .nan ∧
      (m = n ∨ ∃ p q, Text.Parts.ofBits m = .zero p ∧ Text.Parts.ofBits n = .zero q) := by
  rw [Number.same]
  cases hm : Text.Parts.ofBits m <;> cases hn : Text.Parts.ofBits n <;> simp

theorem double_same_trans {m n o : UInt64} (h : Number.same (.double m) (.double n) = true)
    (h' : Number.same (.double n) (.double o) = true) : Number.same (.double m) (.double o) = true := by
  obtain ⟨hm, -, hmn⟩ := double_same_iff.mp h
  obtain ⟨-, ho, hno⟩ := double_same_iff.mp h'
  refine double_same_iff.mpr ⟨hm, ho, ?_⟩
  rcases hmn with rfl | ⟨p, q, hp, hq⟩
  · exact hno
  · rcases hno with rfl | ⟨_, r, -, hr⟩
    · exact .inr ⟨p, q, hp, hq⟩
    · exact .inr ⟨p, r, hp, hr⟩

theorem number_same_symm (h : x.same y = true) : y.same x = true := by
  cases x <;> cases y
  case int.int => cases eq_of_beq h; exact h
  case double.double =>
    obtain ⟨hm, hn, hmn⟩ := double_same_iff.mp h
    exact double_same_iff.mpr ⟨hn, hm, hmn.imp Eq.symm fun ⟨p, q, hp, hq⟩ => ⟨q, p, hq, hp⟩⟩
  all_goals exact h

theorem literal_same_symm (h : l.same l' = true) : l'.same l = true := by
  cases l <;> cases l' <;> try cases h
  case number.number => exact number_same_symm h
  case text.text => cases eq_of_beq h; exact h
  case pair.pair =>
    rw [Literal.same, Bool.and_eq_true] at h ⊢
    exact h.imp number_same_symm number_same_symm
  all_goals rfl

theorem OrdinaryConstant.same_refl (h : OrdinaryConstant k l) : l.same l = true := by
  cases h with
  | integer | text | long => exact beq_self_eq_true _
  | float h => exact double_same_iff.mpr ⟨h, h, .inl rfl⟩
  | complex h h' =>
    exact Bool.and_eq_true_iff.mpr
      ⟨double_same_iff.mpr ⟨h, h, .inl rfl⟩, double_same_iff.mpr ⟨h', h', .inl rfl⟩⟩

theorem OrdinaryConstant.same_trans (h : OrdinaryConstant k l) (h' : OrdinaryConstant k l')
    (h'' : OrdinaryConstant k l'') (hl : l.same l' = true) (hl' : l'.same l'' = true) :
    l.same l'' = true := by
  cases h <;> cases h' <;> try cases hl
  case float.float => cases h''; exact double_same_trans hl hl'
  case complex.complex =>
    cases h'' with
    | long => cases hl'
    | complex =>
      rw [Literal.same, Bool.and_eq_true] at hl hl' ⊢
      exact ⟨double_same_trans hl.1 hl'.1, double_same_trans hl.2 hl'.2⟩
  all_goals cases eq_of_beq hl; exact hl'

/-! ## Variables -/

theorem Ordinary.of_constant (h : Ordinary s d a) (ha : s.node a = .constant k l) :
    OrdinaryConstant k l := by
  cases h with
  | identifier ha' | element ha' => cases ha.symm.trans ha'
  | constant ha' hl => cases ha.symm.trans ha'; exact hl

theorem Ordinary.of_element {t k : NodeId} (h : Ordinary s d a) (ha : s.node a = .element t k) :
    ∃ e, Ordinary s e t ∧ Ordinary s e k := by
  cases h with
  | identifier ha' | constant ha' => cases ha.symm.trans ha'
  | element ha' ht hk => cases ha.symm.trans ha'; exact ⟨_, ht, hk⟩

theorem Ordinary.equalTo_returns (ha : Ordinary s d a) (hb : Ordinary s d b) :
    ∃ r, equalTo s d a b = .ok r := by
  induction ha generalizing b with
  | identifier ha | constant ha =>
    cases hb with
    | identifier hb | constant hb | element hb => exact ⟨_, by rw [equalTo, ha, hb]; try rfl⟩
  | element ha _ _ iht ihk =>
    cases hb with
    | identifier hb | constant hb => exact ⟨_, by rw [equalTo, ha, hb]; rfl⟩
    | element hb ht hk =>
      rw [equalTo, ha, hb]
      obtain ⟨same, hsame⟩ := iht ht
      simp only [hsame]
      cases same with
      | false => exact ⟨_, rfl⟩
      | true => exact ihk hk

theorem Ordinary.same_refl (h : Ordinary s d a) : SameVariable s a a := by
  induction h with
  | identifier ha => exact .identifier ha ha rfl rfl
  | constant ha hl => exact .constant ha ha hl.same_refl
  | element ha _ _ iht ihk => exact .element ha ha iht ihk

theorem SameVariable.symm (h : SameVariable s a b) : SameVariable s b a := by
  induction h with
  | identifier ha hb hk hs => exact .identifier hb ha hk.symm hs.symm
  | constant ha hb hl => exact .constant hb ha (literal_same_symm hl)
  | element ha hb _ _ iht ihk => exact .element hb ha iht ihk

theorem SameVariable.trans {e f : Nat} (hab : SameVariable s a b) (hbc : SameVariable s b c)
    (ha : Ordinary s d a) (hb : Ordinary s e b) (hc : Ordinary s f c) : SameVariable s a c := by
  induction hab generalizing d e f c with
  | identifier ha' hb' hk hs =>
    cases hbc with
    | constant hb'' | element hb'' => cases hb'.symm.trans hb''
    | identifier hb'' hc' hk' hs' =>
      cases hb'.symm.trans hb''
      exact .identifier ha' hc' (hk.trans hk') (hs.trans hs')
  | constant ha' hb' hl =>
    cases hbc with
    | identifier hb'' | element hb'' => cases hb'.symm.trans hb''
    | constant hb'' hc' hl' =>
      cases hb'.symm.trans hb''
      exact .constant ha' hc'
        ((ha.of_constant ha').same_trans (hb.of_constant hb') (hc.of_constant hc') hl hl')
  | element ha' hb' _ _ iht ihk =>
    cases hbc with
    | identifier hb'' | constant hb'' => cases hb'.symm.trans hb''
    | element hb'' hc' htt hkk =>
      cases hb'.symm.trans hb''
      obtain ⟨_, ht, hk⟩ := ha.of_element ha'
      obtain ⟨_, ht', hk'⟩ := hb.of_element hb'
      obtain ⟨_, ht'', hk''⟩ := hc.of_element hc'
      exact .element ha' hc' (iht htt ht ht' ht'') (ihk hkk hk hk' hk'')

/-- Comparing ordinary variables always gives an answer, and is an equivalence. Variables that are
equal hold one value, whatever is stored. -/
theorem comparison_is_equivalence (ha : Ordinary s d a) (hb : Ordinary s d b) (hc : Ordinary s d c) :
    (∃ r, equalTo s d a b = .ok r) ∧ equalTo s d a a = .ok true ∧
      (equalTo s d a b = .ok true → equalTo s d b a = .ok true) ∧
      (equalTo s d a b = .ok true → equalTo s d b c = .ok true → equalTo s d a c = .ok true) ∧
      (equalTo s d a b = .ok true → ∀ {V : Type} (σ : Contents V), σ.value s d a = σ.value s d b) := by
  -- an answer that exists is the one the forms give
  have hanswer {a b : NodeId} (ha : Ordinary s d a) (hb : Ordinary s d b) (h : SameVariable s a b) :
      equalTo s d a b = .ok true := by
    obtain ⟨r, hr⟩ := ha.equalTo_returns hb
    rw [hr, (equalTo_iff hr).mpr h]
  refine ⟨ha.equalTo_returns hb, hanswer ha ha ha.same_refl, fun h => ?_, fun h h' => ?_,
    fun h _ σ => value_of_equalTo σ h⟩
  · exact hanswer hb ha ((equalTo_iff h).mp rfl).symm
  · exact hanswer ha hc (((equalTo_iff h).mp rfl).trans ((equalTo_iff h').mp rfl) ha hb hc)

/-- Two times the same element of a slot. -/
def elementTwice (key : Node) : Store :=
  let slot := .identifier { kind := .slot, slot := 0 }
  numbered [slot, key, .element ⟨1⟩ ⟨2⟩, slot, key, .element ⟨4⟩ ⟨5⟩]

/-- Texts hold themselves, and an element is its key. -/
def textContents : Contents (Option String) where
  storage _ _ := none
  constant _ l := match l with
    | .text t => some t
    | _ => none
  index _ k := some k
  constant_same _ l l' h := by
    cases l <;> cases l' <;> first | rfl | cases h | exact congrArg some (eq_of_beq h)

theorem elementTwice_text_equal :
    let s := elementTwice (.constant .text (.text "y"))
    Ordinary s 2 ⟨3⟩ ∧ Ordinary s 2 ⟨6⟩ ∧
      equalTo s 2 ⟨3⟩ ⟨6⟩ = .ok true ∧ equalTo s 2 ⟨6⟩ ⟨3⟩ = .ok true ∧
      textContents.value s 2 ⟨3⟩ = textContents.value s 2 ⟨6⟩ ∧
      textContents.value s 2 ⟨3⟩ = some (some "y") := by
  have h3 : Ordinary (elementTwice (.constant .text (.text "y"))) 2 ⟨3⟩ :=
    .element rfl (.identifier rfl) (.constant rfl (.text _))
  have h6 : Ordinary (elementTwice (.constant .text (.text "y"))) 2 ⟨6⟩ :=
    .element rfl (.identifier rfl) (.constant rfl (.text _))
  obtain ⟨-, -, hsymm, -, hvalue⟩ := comparison_is_equivalence h3 h6 h3
  exact ⟨h3, h6, rfl, hsymm rfl, hvalue rfl textContents, rfl⟩

/-- An element whose key is `true` is not compared even with itself, and one whose key is a NaN is not
equal to itself. -/
theorem elementTwice_not_equal :
    equalTo (elementTwice (.primitive .true)) 2 ⟨3⟩ ⟨3⟩ =
        .error (.broken "only variables and constants are compared") ∧
      equalTo (elementTwice (.constant .float (.number (.double 0x7FF8000000000000)))) 2 ⟨3⟩ ⟨3⟩ =
        .ok false := by
  exact ⟨rfl, by decide +kernel⟩

end LuaLift.Proofs
