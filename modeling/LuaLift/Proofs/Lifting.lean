import LuaLift.Proofs.Branching
import LuaLift.Proofs.Parts

/-! # Trees of instructions

Every legible instruction of a kind that a compiler writes is made into a plain tree: its
operands are nodes, constants are there, and operators are known ones. -/
namespace LuaLift.Proofs
open Bytecode Tree Pass Lift

variable {p : Prototype} {i : Instruction} {w : Work Unit} {a v : Int}

/-! ## Operands -/

variable {α : Type} {last first : Int} {o : Opcode} {kind : OperandKind} {x : Option Int}

theorem exists_of_legible (h : operandLegible p (some kind) x = true) :
    ∃ v, x = some v ∧ valueFits p v kind = true := by
  cases x with
  | none => cases h
  | some v => exact ⟨v, rfl, h⟩

theorem Legible.operandA (h : Legible p i) (hk : i.shape.a = some kind) :
    ∃ v, i.a = some v ∧ valueFits p v kind = true :=
  exists_of_legible (hk ▸ h.a)

theorem Legible.operandB (h : Legible p i) (hk : i.shape.b = some kind) :
    ∃ v, i.b = some v ∧ valueFits p v kind = true :=
  exists_of_legible (hk ▸ h.b)

theorem Legible.operandCD (h : Legible p i) (hk : i.shape.cd = some kind) :
    ∃ v, i.cd = some v ∧ valueFits p v kind = true :=
  exists_of_legible (hk ▸ h.cd)

theorem at?_of_nonneg {xs : List α} (h : 0 ≤ v) : at? xs v = xs[v.toNat]? := by
  obtain ⟨n, rfl⟩ := Int.eq_ofNat_of_zero_le h
  exact at?_ofNat xs n

theorem number_of_fits (h : valueFits p v .number = true) : ∃ n, at? p.numbers v = some n := by
  simp only [valueFits, Bool.and_eq_true, decide_eq_true_eq] at h
  rw [at?_of_nonneg h.1]
  exact ⟨_, List.getElem?_eq_getElem (by omega)⟩

theorem complex_of_fits (hk : kind = .text ∨ kind = .table ∨ kind = .proto ∨ kind = .cdata)
    (h : valueFits p v kind = true) : ∃ c, at? p.complex v = some c ∧ c ∈ p.complex := by
  have h0 : 0 ≤ v ∧ p.complex[v.toNat]? ≠ none := by
    rcases hk with rfl | rfl | rfl | rfl <;>
    · simp only [valueFits, Bool.and_eq_true, decide_eq_true_eq] at h
      refine ⟨h.1, fun hn => ?_⟩
      simp [hn] at h
  obtain ⟨c, hc⟩ := Option.ne_none_iff_exists'.mp h0.2
  exact ⟨c, (at?_of_nonneg h0.1).trans hc, List.mem_of_getElem? hc⟩

theorem table_of_fits (h : valueFits p v .table = true) : ∃ t, at? p.complex v = some (.table t) := by
  simp only [valueFits, Bool.and_eq_true, decide_eq_true_eq] at h
  rw [at?_of_nonneg h.1]
  obtain ⟨-, h⟩ := h
  split at h
  · rename_i t ht
    exact ⟨t, ht⟩
  · cases h

theorem child_of_fits (h : valueFits p v .proto = true) :
    ∃ q, at? p.complex v = some (.child q) ∧ .child q ∈ p.complex := by
  simp only [valueFits, Bool.and_eq_true, decide_eq_true_eq] at h
  rw [at?_of_nonneg h.1]
  obtain ⟨-, h⟩ := h
  split at h
  · rename_i q hq
    exact ⟨q, hq, List.mem_of_getElem? hq⟩
  · cases h

theorem succeeds_operand {f : Int → Edit α} {post : α → Work Unit → Prop} (hx : x = some v)
    (h : Succeeds (f v) w post) : Succeeds (operand x >>= f) w post := by
  subst hx
  exact h

/-! ## Nodes for operands -/

theorem makes_slot (h : 0 ≤ v) : Makes (slot a v) w isIdentifierNode := by
  refine makes_addCell rfl ⟨{}, ?_, by simp [Node.children]⟩ (by simp [Node.children]) (.inr rfl) rfl
  simp [partRule, demand, h, bind, Except.bind, pure, Except.pure]

theorem makes_variable (h : 0 ≤ v) : Makes (slot a v) w Node.isVariable :=
  (makes_slot h).weaken isVariable_of_isIdentifier

theorem makes_operandSlot (h : 0 ≤ v) : Makes (slot a v) w Node.isExpression :=
  (makes_variable h).weaken isExpression_of_isVariable

theorem succeeds_slots (h : 0 ≤ first) :
    Succeeds (slots a first last) w fun xs w' => xs.length = (last - first + 1).toNat ∧
      Grows w.store w'.store ∧ ∀ x ∈ xs, Has w'.store isIdentifierNode x := by
  have hslot : ∀ k ∈ List.range (last - first + 1).toNat, ∀ u : Work Unit,
      Makes (slot a (first + (k : Int))) u isIdentifierNode := fun k _ u => makes_slot (by omega)
  exact (succeeds_mapM_makes hslot).mono fun xs w' hx => ⟨by simpa using hx.1, hx.2⟩

theorem makesAll_slots (h : 0 ≤ first) : MakesAll (slots a first last) w Node.isVariable :=
  (succeeds_slots h).mono fun _ _ hx =>
    ⟨hx.2.1, fun x hm => (hx.2.2 x hm).weaken isVariable_of_isIdentifier⟩

theorem makes_upvalue (h : 0 ≤ v) : Makes (upvalue p a v) w Node.isVariable := by
  unfold upvalue
  split
  · refine makes_addCell rfl ⟨{}, ?_, by simp [Node.children]⟩ (by simp [Node.children]) (.inr rfl) rfl
    simp [partRule, demand, h, bind, Except.bind, pure, Except.pure]
  · exact makes_variable h

theorem makes_literal : Makes (literal v) w Node.isExpression := makes_leaf rfl rfl rfl rfl

theorem makes_numberNode (n : Number) : Makes (numberNode n) w Node.isExpression := by
  cases n <;> exact makes_leaf rfl rfl rfl rfl

theorem makes_numericConstant (h : valueFits p v .number = true) :
    Makes (numericConstant p v) w Node.isExpression := by
  obtain ⟨n, hn⟩ := number_of_fits h
  exact (succeeds_atPosition hn (makes_numberNode n)).bind

theorem makes_complexConstant {kind : ConstantKind} {c : Complex Prototype}
    (hc : at? p.complex v = some c) (hk : ∀ x, kind ≠ .other x) :
    Makes (complexConstant p kind v) w Node.isExpression := by
  refine (succeeds_atPosition hc ?_).bind
  refine makes_leaf rfl ?_ rfl rfl
  cases kind <;> first | rfl | exact (hk _ rfl).elim

theorem makes_textConstant (h : valueFits p v .text = true) :
    Makes (textConstant p v) w Node.isExpression := by
  obtain ⟨c, hc, -⟩ := complex_of_fits (.inl rfl) h
  exact makes_complexConstant hc (by simp)

theorem makes_primitiveNode (h : valueFits p v .primitive = true) :
    Makes (primitiveNode v) w Node.isExpression := by
  simp only [valueFits, Bool.and_eq_true, decide_eq_true_eq] at h
  obtain rfl | rfl | rfl : v = 0 ∨ v = 1 ∨ v = 2 := by omega
  all_goals exact makes_leaf rfl rfl rfl rfl

/-- The kinds of operands that stand for a constant. -/
def isConstantKind : OperandKind → Bool
  | .text | .cdata | .signedLiteral | .literal | .number | .primitive => true
  | _ => false

theorem makes_constantOperand (h : Legible p i) (hk : i.shape.cd = some kind)
    (hc : isConstantKind kind = true) : Makes (constantOperand p i) w Node.isExpression := by
  obtain ⟨v, hv, hfits⟩ := h.operandCD hk
  unfold constantOperand
  rw [hk, hv]
  cases kind with
  | text => exact makes_textConstant hfits
  | cdata =>
    obtain ⟨c, hc, -⟩ := complex_of_fits (.inr (.inr (.inr rfl))) hfits
    exact makes_complexConstant hc (by simp)
  | signedLiteral => exact makes_literal
  | literal => exact makes_literal
  | number => exact makes_numericConstant hfits
  | primitive => exact makes_primitiveNode hfits
  | _ => cases hc

theorem makes_tableElement (h : Legible p i) (hb : i.shape.b = some .var) (hk : i.shape.cd = some kind)
    (hc : kind = .var ∨ isConstantKind kind = true) : Makes (tableElement p a i) w Node.isVariable := by
  obtain ⟨b, hib, hbfits⟩ := h.operandB hb
  refine succeeds_operand hib ?_
  refine (makes_operandSlot (by simpa [valueFits] using hbfits)).next fun t w1 _ ht => ?_
  rw [hk]
  rcases hc with rfl | hc
  · obtain ⟨d, hd, hfits⟩ := h.operandCD hk
    refine succeeds_operand hd ?_
    refine (makes_operandSlot (by simpa [valueFits] using hfits)).next fun k w2 hg hk => ?_
    exact makes_element (ht.grow hg) hk
  · have hkey : Makes (constantOperand p i >>= fun key => add (.element t key)) w1 Node.isVariable :=
      (makes_constantOperand h hk hc).next fun k w2 hg hk => makes_element (ht.grow hg) hk
    cases kind <;> first | exact hkey | cases hc

theorem makes_globalVariable (h : valueFits p v .text = true) :
    Makes (globalVariable p v) w Node.isVariable := by
  have hname : Makes (add (.identifier { name := some "_env", kind := .builtin })) w
      Node.isExpression := makes_leaf rfl rfl rfl rfl
  refine hname.next fun t w1 _ ht => ?_
  exact (makes_textConstant h).next fun k w2 hg hk => makes_element (ht.grow hg) hk

/-! ## Table constants -/

theorem makes_tableItem (x : TableItem) : Makes (tableItem x) w Node.isExpression := by
  cases x with
  | number n => exact makes_numberNode n
  | bool b => cases b <;> exact makes_leaf rfl rfl rfl rfl
  | _ => exact makes_leaf rfl rfl rfl rfl

theorem makes_arrayRecord (x : TableItem) :
    Makes (do add (.arrayRecord (← tableItem x))) w isArrayRecordNode := by
  refine (makes_tableItem x).next fun v w1 _ hv => ?_
  refine makes_add rfl (.ofGeneral (f := Node.isExpression) rfl ?_) ?_ rfl
  all_goals simp [Node.children, hv.fits, hv.any]

theorem makes_tableRecord (k v : TableItem) :
    Makes (do
      let key ← tableItem k
      let value ← tableItem v
      add (.tableRecord key value)) w isTableRecordNode := by
  refine (makes_tableItem k).next fun key w1 _ hk => ?_
  refine (makes_tableItem v).next fun value w2 hg hv => ?_
  have hk := hk.grow hg
  refine makes_add rfl (.ofGeneral (f := Node.isExpression) rfl ?_) ?_ rfl
  all_goals simp [Node.children, hk.fits, hv.fits, hk.any, hv.any]

theorem makes_records {fits : Node → Bool} {xs : List NodeId}
    (hk : fits = isArrayRecordNode ∨ fits = isTableRecordNode)
    (hx : ∀ x ∈ xs, Has w.store fits x) : Makes (addList .records xs) w (Node.isList .records) := by
  have hvalid : validRecords (xs.map w.store.node) = true := by
    have hall : ∀ m ∈ xs.map w.store.node, fits m = true := by
      intro m hm
      obtain ⟨x, hxm, rfl⟩ := List.mem_map.mp hm
      exact (hx x hxm).fits
    cases hl : xs.map w.store.node with
    | nil => rfl
    | cons m ms =>
      rw [hl] at hall
      rcases hk with rfl | rfl
      · rw [validRecords, if_pos (hall m List.mem_cons_self)]
        exact List.all_eq_true.mpr fun n hn => hall n (List.mem_cons_of_mem _ hn)
      · have hm : isArrayRecordNode m = false := by
          have := hall m List.mem_cons_self
          cases m <;> first | rfl | cases this
        rw [validRecords, if_neg (by simp [hm])]
        exact List.all_eq_true.mpr fun n hn => hall n (List.dropLast_subset _ hn)
  refine makes_list (f := isRecordNode) (by decide) ?_ fun x hm => (hx x hm).weaken fun n hn => ?_
  · simp [partRule, demand, hvalid, bind, Except.bind, pure, Except.pure]
  · rcases hk with rfl | rfl <;> cases n <;> first | rfl | cases hn

theorem makes_tableCopy (h : valueFits p v .table = true) :
    Makes (tableCopy p v) w Node.isExpression := by
  obtain ⟨t, ht⟩ := table_of_fits h
  refine (succeeds_atPosition ht ?_).bind
  refine MakesAll.next (.mapM fun x _ u => makes_arrayRecord x) fun as w1 _ ha => ?_
  refine MakesAll.next (.mapM fun e _ u => makes_tableRecord e.1 e.2) fun rs w2 hg2 hr => ?_
  refine (makes_records (.inl rfl) fun x hx => (ha x hx).grow hg2).next fun l w3 hg3 hl => ?_
  refine (makes_records (.inr rfl) fun x hx => (hr x hx).grow hg3).next fun l' w4 hg4 hl' => ?_
  exact makes_table (hl.grow hg4) hl'

/-! ## Expressions -/

theorem arithmeticOp_known (code : Nat) (c : Int) : arithmeticOp code ≠ .other c := by
  unfold arithmeticOp
  split
  · simp
  · split <;> simp

theorem makes_binaryExpression (h : Legible p i) (hb : i.shape.b = some .var)
    (hk : i.shape.cd = some .var ∨ i.shape.cd = some .number) :
    Makes (binaryExpression p a i) w Node.isExpression := by
  obtain ⟨b, hib, hbfits⟩ := h.operandB hb
  have hb0 : 0 ≤ b := by simpa [valueFits] using hbfits
  unfold binaryExpression
  rcases hk with hk | hk
  · obtain ⟨d, hd, hfits⟩ := h.operandCD hk
    rw [hb, hk]
    refine succeeds_operand hib ((makes_operandSlot hb0).next fun l w1 _ hl => ?_)
    refine succeeds_operand hd ?_
    refine (makes_operandSlot (by simpa [valueFits] using hfits)).next fun r w2 hg hr => ?_
    exact makes_binary (arithmeticOp_known _) (hl.grow hg) hr
  · obtain ⟨d, hd, hfits⟩ := h.operandCD hk
    rw [hb, hk]
    refine succeeds_operand hib ((makes_operandSlot hb0).next fun l w1 _ hl => ?_)
    refine succeeds_operand hd ((makes_numericConstant hfits).next fun r w2 hg hr => ?_)
    exact makes_binary (arithmeticOp_known _) (hl.grow hg) hr

theorem makes_concatExpression (h : Legible p i) (hb : i.shape.b = some .readBase)
    (hk : i.shape.cd = some .readBase) : Makes (concatExpression a i) w Node.isExpression := by
  obtain ⟨b, hib, hbfits⟩ := h.operandB hb
  obtain ⟨d, hd, -⟩ := h.operandCD hk
  have hb0 : 0 ≤ b := by simpa [valueFits] using hbfits
  refine succeeds_operand hib ((makes_operandSlot hb0).next fun l w1 _ hl => ?_)
  refine (makes_operandSlot (by omega)).next fun r w2 hg hr => ?_
  refine (makes_binary (by simp) (hl.grow hg) hr).next fun x w3 hg3 hx => ?_
  clear hg3
  refine succeeds_operand hd ?_
  -- Each further slot goes on top of what has been joined so far.
  generalize List.range (d - (b + 2) + 1).toNat = ks
  induction ks generalizing x w3 with
  | nil => exact .pure ⟨.refl _, hx⟩
  | cons k ks ih =>
    have hjoin : Makes (do
        let right ← slot a (b + 2 + (k : Int))
        add (.binary .concat x right)) w3 Node.isExpression :=
      (makes_operandSlot (by omega)).next fun r w4 hg hr =>
        makes_binary (by simp) (hx.grow hg) hr
    exact hjoin.next fun y w4 _ hy => ih y w4 hy

theorem makes_comparison (h : Legible p i) (ho : i.op = o) (hop : (comparisonOp o).isSome = true) :
    Makes (Lift.comparison p a i) w Node.isExpression := by
  have hshape : i.shape = o.shape := by rw [Instruction.shape, ho]
  obtain ⟨op, hop'⟩ := Option.isSome_iff_exists.mp hop
  have ha : i.shape.a = some .var := by
    rw [hshape]
    cases o <;> first | rfl | cases hop
  have hknown : ∀ c, op ≠ .other c := by
    intro c hc
    cases o <;> cases hop' <;> cases hc
  obtain ⟨x, hx, hxfits⟩ := h.operandA ha
  unfold Lift.comparison
  rw [h.meaning, ho]
  rw [Option.bind_some, hop']
  refine succeeds_operand hx ?_
  refine (makes_operandSlot (by simpa [valueFits] using hxfits)).next fun l w1 _ hl => ?_
  have hjoin : ∀ {m : Edit NodeId}, Makes m w1 Node.isExpression →
      Makes (m >>= fun r => add (.binary op l r)) w1 Node.isExpression := fun hm =>
    hm.next fun r w2 hg hr => makes_binary hknown (hl.grow hg) hr
  cases o with
  | islt | isge | isle | isgt | iseqv | isnev =>
    obtain ⟨d, hd, hfits⟩ := h.operandCD (show i.shape.cd = some .var from hshape ▸ rfl)
    exact succeeds_operand hd (hjoin (makes_operandSlot (by simpa [valueFits] using hfits)))
  | iseqs | isnes =>
    obtain ⟨d, hd, hfits⟩ := h.operandCD (show i.shape.cd = some .text from hshape ▸ rfl)
    exact succeeds_operand hd (hjoin (makes_textConstant hfits))
  | iseqn | isnen =>
    obtain ⟨d, hd, hfits⟩ := h.operandCD (show i.shape.cd = some .number from hshape ▸ rfl)
    exact succeeds_operand hd (hjoin (makes_numericConstant hfits))
  | iseqp | isnep =>
    obtain ⟨d, hd, hfits⟩ := h.operandCD (show i.shape.cd = some .primitive from hshape ▸ rfl)
    exact succeeds_operand hd (hjoin (makes_primitiveNode hfits))
  | _ => cases hop

/-- Instructions whose value is an operator applied to a slot, or the slot itself. -/
def isUnary : Opcode → Bool
  | .istc | .isfc | .ist | .isf | .mov | .not | .unm | .len => true
  | _ => false

theorem makes_unaryExpression (h : Legible p i) (ho : i.op = o) (hop : isUnary o = true) :
    Makes (unaryExpression a i) w Node.isExpression := by
  have hcd : i.shape.cd = some .var := by
    rw [Instruction.shape, ho]
    cases o <;> first | rfl | cases hop
  obtain ⟨d, hd, hfits⟩ := h.operandCD hcd
  unfold unaryExpression
  rw [h.meaning, ho]
  refine succeeds_operand hd ?_
  refine (makes_operandSlot (by simpa [valueFits] using hfits)).next fun x w1 _ hx => ?_
  cases o with
  | isfc | isf | mov => exact .pure ⟨.refl _, hx⟩
  | istc | ist | not | unm | len => exact makes_unary (by simp) hx
  | _ => cases hop

end LuaLift.Proofs
