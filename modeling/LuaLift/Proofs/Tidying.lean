import LuaLift.Tidy
import LuaLift.Proofs.Parts
import LuaLift.Proofs.Sharing

/-! # Trees that are tidied

Tidying changes three kinds of nodes: lists of statements, lists of records and choices. What
such a node is for its parent stays the same (`Reshaped`), so a tree stays valid as long as each
changed node and each new one asks for parts that it has. `Orderly` is what holds of the store
all the way, and `Orderly.advance` reduces a change to the nodes that it touches. -/
namespace LuaLift.Proofs
open Tree Pass

/-! ## What is asked of a tree -/

/-- What can stand at the end of the records of a constructor. -/
def isOpenEnd : Node → Bool
  | .call .. | .vararg => true
  | _ => false

/-- Records, and at the end a call or vararg that gives any number of values. -/
def areRecords (ns : List Node) : Bool :=
  ns.dropLast.all isTableRecordNode && ns.getLast?.all fun n => isTableRecordNode n || isOpenEnd n

/-- A constructor has array records in its array and records among its records. -/
def isTidyTable (s : Store) : Node → Bool
  | .table array records =>
    ((s.node array).items.all fun x => isArrayRecordNode (s.node x)) &&
      areRecords ((s.node records).items.map s.node)
  | _ => true

/-- What is assigned to an element with results of unknown number as its key has such results. -/
def isTidyAssignment (s : Store) : Node → Bool
  | .assignment _ expressions destinations =>
    match (s.node destinations).items, (s.node expressions).items with
    | [d], [value] => match s.node d with
      | .element _ key => s.node key != .multres || isOpenEnd (s.node value)
      | _ => true
    | _, _ => true
  | _ => true

/-- A choice has an expression for its condition and choices of the right kind after it. -/
def isTidyChoice (s : Store) : Node → Bool
  | .ifElse condition _ elseIfs _ =>
    (s.node condition).isExpression && elseIfs.all fun x => isElseIfNode (s.node x)
  | _ => true

/-- Trees that can be tidied. -/
structure Tidyable (s : Store) (root : NodeId) : Prop where
  valid : s.validate false root = .ok ()
  tables : ∀ i, InTree s root i → isTidyTable s (s.node i) = true
  assignments : ∀ i, InTree s root i → isTidyAssignment s (s.node i) = true
  choices : ∀ i, InTree s root i → isTidyChoice s (s.node i) = true
  apart : ∀ i j a r a' r', InTree s root i → InTree s root j → s.node i = .table a r →
    s.node j = .table a' r' → a ≠ r'

/-! ## Nodes that keep their kind -/

/-- The second node is the first one, or what tidying can make of it. -/
inductive Reshaped : Node → Node → Prop
  | same {n} : Reshaped n n
  | statements {xs ys} : Reshaped (.list .statements xs) (.list .statements ys)
  | records {xs ys} : Reshaped (.list .records xs) (.list .records ys)
  | choice {c b xs e ys e'} : Reshaped (.ifElse c b xs e) (.ifElse c b ys e')

variable {s t t' : Store} {root i c : NodeId} {n m : Node}

variable {ns : List Node} {xs : List NodeId} {k : Node} {f : Node → Bool} {a b e r x : NodeId}

theorem Reshaped.trans (h : Reshaped n m) (h' : Reshaped m k) : Reshaped n k := by
  cases h with
  | same => exact h'
  | statements => cases h' <;> exact .statements
  | records => cases h' <;> exact .records
  | choice => cases h' <;> exact .choice

/-- Nodes whose links tidying can change. -/
def isMutable : Node → Bool
  | .list .statements _ | .list .records _ | .ifElse .. => true
  | _ => false

theorem Reshaped.eq (h : Reshaped n m) (hn : isMutable n = false) : m = n := by
  cases h with
  | same => rfl
  | statements | records | choice => cases hn

theorem Reshaped.eq_start (h : Reshaped n m) (hm : isMutable m = false) : n = m := by
  cases h with
  | same => rfl
  | statements | records | choice => cases hm

/-- A test that does not look at the links of a node. -/
structure KindTest (f : Node → Bool) : Prop where
  list : ∀ kind xs ys, f (.list kind xs) = f (.list kind ys) := by intros; rfl
  choice : ∀ c b xs e c' b' ys e', f (.ifElse c b xs e) = f (.ifElse c' b' ys e') := by intros; rfl

theorem Reshaped.test (h : Reshaped n m) (hf : KindTest f) : f m = f n := by
  cases h with
  | same => rfl
  | statements | records => exact hf.list ..
  | choice => exact hf.choice ..

@[simp] theorem kindTest_isExpression : KindTest Node.isExpression := {}
@[simp] theorem kindTest_isStatement : KindTest Node.isStatement := {}
@[simp] theorem kindTest_isVariable : KindTest Node.isVariable := {}
@[simp] theorem kindTest_isExit : KindTest Node.isExit := {}
@[simp] theorem kindTest_isList (kind : ListKind) : KindTest (Node.isList kind) := {}
@[simp] theorem kindTest_isBlockNode : KindTest isBlockNode := {}
@[simp] theorem kindTest_isElseIfNode : KindTest isElseIfNode := {}
@[simp] theorem kindTest_isIdentifierNode : KindTest isIdentifierNode := {}
@[simp] theorem kindTest_isRecordNode : KindTest isRecordNode := {}
theorem kindTest_isArrayRecordNode : KindTest isArrayRecordNode := {}
theorem kindTest_isTableRecordNode : KindTest isTableRecordNode := {}
theorem kindTest_isOpenEnd : KindTest isOpenEnd := {}
@[simp] theorem kindTest_isParameter : KindTest (fun n => isIdentifierNode n || n == .vararg) :=
  ⟨fun _ _ _ => rfl, fun _ _ _ _ _ _ _ _ => rfl⟩

theorem kindTest_special : ∀ p ∈ (ruleFor false n).special, KindTest p.2 := by
  cases n with
  | list kind xs => cases kind <;> simp [ruleFor]
  | _ => simp [ruleFor]

theorem kindTest_general : ∀ f, (ruleFor false n).general = some f → KindTest f := by
  cases n with
  | list kind xs => cases kind <;> simp [ruleFor]
  | _ => simp [ruleFor]

theorem Reshaped.allows (h : Reshaped n m) (hc : (ruleFor false k).allows c n = true) :
    (ruleFor false k).allows c m = true := by
  unfold PartRule.allows at hc ⊢
  split
  · rename_i j f hf
    rw [hf] at hc
    have hmem := List.mem_reverse.mp (List.mem_of_find?_eq_some hf)
    exact (h.test (kindTest_special (j, f) hmem)).trans hc
  · rename_i hf
    rw [hf] at hc
    split
    · rename_i f hg
      rw [hg] at hc
      rw [h.test (kindTest_general f hg)]
      exact hc
    · rename_i hg
      rw [hg] at hc
      cases hc

/-! ## The store while a tree is tidied -/

/-- Nodes that are added to a tree. -/
def isAdded : Node → Bool
  | .arrayRecord _ | .tableRecord .. | .elseIf .. | .primitive .nil => true
  | _ => false

/-- The nodes of the tree at the start, and those that were added. -/
def Known (s : Store) (root : NodeId) (t : Store) (i : NodeId) : Prop :=
  InTree s root i ∨ s.cells.size ≤ i.index ∧ i.index < t.cells.size

/-- A node has the parts that it asks for, and they are known. -/
structure Formed (s : Store) (root : NodeId) (t : Store) (n : Node) : Prop where
  parts : ∀ c ∈ n.children, Known s root t c ∧ (ruleFor false n).allows c (t.node c) = true
  rule : ∃ r, partRule t false n = .ok r
  choice : isTidyChoice t n = true

/-- What holds of the store `t` while the tree in `s` is tidied. -/
structure Orderly (s : Store) (root : NodeId) (t : Store) : Prop where
  size : s.cells.size ≤ t.cells.size
  old : ∀ i, i.index < s.cells.size → Reshaped (s.node i) (t.node i)
  new : ∀ i, s.cells.size ≤ i.index → i.index < t.cells.size → isAdded (t.node i) = true
  fits : ∀ i, Known s root t i → Formed s root t (t.node i)
  tables : ∀ i, InTree s root i → isTidyTable t (t.node i) = true

section
variable {xs : List NodeId} (hxs : ∀ x ∈ xs, Reshaped (t.node x) (t'.node x))
include hxs

theorem all_reshaped (hf : KindTest f) : (xs.map t'.node).all f = (xs.map t.node).all f := by
  rw [List.all_map, List.all_map, Bool.eq_iff_iff, List.all_eq_true, List.all_eq_true]
  refine forall₂_congr fun x hx => ?_
  rw [Function.comp, Function.comp, (hxs x hx).test hf]

theorem all_dropLast_reshaped (hf : KindTest f) :
    (xs.map t'.node).dropLast.all f = (xs.map t.node).dropLast.all f := by
  rw [← List.map_dropLast, ← List.map_dropLast]
  exact all_reshaped (fun x hx => hxs x (List.dropLast_subset _ hx)) hf

theorem validRecords_reshaped : validRecords (xs.map t'.node) = validRecords (xs.map t.node) := by
  cases xs with
  | nil => rfl
  | cons x xs =>
    have hall := all_reshaped (fun y hy => hxs y (List.mem_cons_of_mem _ hy)) kindTest_isArrayRecordNode
    have hdrop := all_dropLast_reshaped hxs kindTest_isTableRecordNode
    have hfirst := (hxs x List.mem_cons_self).test kindTest_isArrayRecordNode
    simp only [List.map_cons, validRecords] at hall hdrop ⊢
    rw [hfirst, hall, hdrop]

theorem areRecords_reshaped : areRecords (xs.map t'.node) = areRecords (xs.map t.node) := by
  rw [areRecords, areRecords, all_dropLast_reshaped hxs kindTest_isTableRecordNode,
    List.getLast?_map, List.getLast?_map]
  cases hlast : xs.getLast? with
  | none => rfl
  | some x =>
    have hx := hxs x (List.mem_of_getLast? hlast)
    simp only [Option.map_some, Option.all_some, hx.test kindTest_isTableRecordNode,
      hx.test kindTest_isOpenEnd]

end

theorem Reshaped.blockIndex? (h : Reshaped n m) : Tree.blockIndex? m = Tree.blockIndex? n := by
  cases h <;> rfl

theorem destinations_fixed {kind : AssignmentKind} {es ds : NodeId}
    (h : (ruleFor false (.assignment kind es ds)).allows ds m = true) :
    ∃ listed xs, m = .list listed xs ∧ isMutable m = false := by
  obtain ⟨p, hp, -, hm⟩ | ⟨-, f, hf, -⟩ := allows_cases h
  · simp only [ruleFor, List.mem_cons, List.not_mem_nil, or_false] at hp
    obtain rfl | rfl := hp
    all_goals
      obtain ⟨xs, rfl⟩ := isList_eq hm
      exact ⟨_, xs, rfl, rfl⟩
  · cases hf

/-- The rule of a node is the same after other nodes have been reshaped. -/
theorem partRule_reshaped (hkeep : ∀ i, t.node i ≠ .absent → Reshaped (t.node i) (t'.node i))
    (hknown : ∀ c ∈ n.children, t.node c ≠ .absent)
    (hparts : ∀ c ∈ n.children, (ruleFor false n).allows c (t.node c) = true) {r : PartRule}
    (hr : partRule t false n = .ok r) : partRule t' false n = .ok r := by
  cases n with
  | assignment kind es ds =>
    obtain ⟨_, _, -, hfixed⟩ := destinations_fixed (hparts ds (by simp [Node.children]))
    have hsame : t'.node ds = t.node ds := (hkeep ds (hknown ds (by simp [Node.children]))).eq hfixed
    rw [← hr]
    simp only [partRule, hsame]
  | list kind xs =>
    cases kind with
    | records =>
      have hvalid : validRecords (xs.map t'.node) = validRecords (xs.map t.node) :=
        validRecords_reshaped fun x hx => hkeep x (hknown x hx)
      rw [← hr]
      simp only [partRule]
      rw [hvalid]
    | _ => exact hr
  | iterate vs cs b w =>
    have hindex : ∀ x, Tree.blockIndex? (t.node x) ≠ none →
        Tree.blockIndex? (t'.node x) = Tree.blockIndex? (t.node x) := by
      intro x hx
      refine (hkeep x ?_).blockIndex?
      intro habsent
      rw [habsent] at hx
      exact hx rfl
    simp only [partRule] at hr ⊢
    obtain ⟨_, h1, hr⟩ := bind_eq_ok hr
    obtain ⟨_, h2, hr⟩ := bind_eq_ok hr
    rw [h1, h2]
    cases hw : Tree.blockIndex? (t.node w) with
    | none =>
      rw [hw] at hr
      cases hr
    | some wi =>
      cases hb : Tree.blockIndex? (t.node b) with
      | none =>
        rw [hw, hb] at hr
        cases hr
      | some bi =>
        rw [hw, hb] at hr
        rw [hindex w (by simp [hw]), hindex b (by simp [hb]), hw, hb]
        exact hr
  | _ => exact hr

theorem Known.mono (h : Known s root t i) (hsize : t.cells.size ≤ t'.cells.size) : Known s root t' i :=
  h.imp_right fun h => ⟨h.1, Nat.lt_of_lt_of_le h.2 hsize⟩

section
variable (hs : Tidyable s root) (ht : Orderly s root t)
include hs

theorem Tidyable.present (hi : InTree s root i) : s.node i ≠ .absent := (hi.allows hs.valid).1

theorem Tidyable.inside (hi : InTree s root i) : i.index < s.cells.size := inside_of_node (hs.present hi)

include ht

theorem Orderly.reshaped (hi : InTree s root i) : Reshaped (s.node i) (t.node i) := ht.old i (hs.inside hi)

theorem Orderly.present (hi : Known s root t i) : t.node i ≠ .absent := by
  cases hi with
  | inl hi =>
    have hkeep := ht.reshaped hs hi
    have hpresent := hs.present hi
    intro habsent
    rw [habsent] at hkeep
    generalize s.node i = n at hkeep hpresent
    cases hkeep
    exact hpresent rfl
  | inr hi =>
    have hnew := ht.new i hi.1 hi.2
    intro habsent
    rw [habsent] at hnew
    cases hnew

theorem Orderly.same (hi : InTree s root i) (hn : isMutable (s.node i) = false) : t.node i = s.node i :=
  (ht.reshaped hs hi).eq hn

omit hs in
/-- Nodes of other kinds than those that are added are nodes of the tree at the start. -/
theorem Orderly.inTree_of_added (hi : Known s root t i) (hn : isAdded (t.node i) = false) :
    InTree s root i := by
  cases hi with
  | inl hi => exact hi
  | inr hi => exact absurd (ht.new i hi.1 hi.2) (by simp [hn])

theorem Formed.reshaped (h : Formed s root t n) (hsize : t.cells.size ≤ t'.cells.size)
    (hkeep : ∀ i, i.index < t.cells.size → Reshaped (t.node i) (t'.node i)) : Formed s root t' n := by
  have hpart : ∀ c ∈ n.children, Reshaped (t.node c) (t'.node c) :=
    fun c hc => hkeep c (inside_of_node (ht.present hs (h.parts c hc).1))
  refine ⟨fun c hc => ⟨(h.parts c hc).1.mono hsize, (hpart c hc).allows (h.parts c hc).2⟩, ?_, ?_⟩
  · obtain ⟨r, hr⟩ := h.rule
    exact ⟨r, partRule_reshaped (fun i hi => hkeep i (inside_of_node hi))
      (fun c hc => ht.present hs (h.parts c hc).1)
      (fun c hc => (h.parts c hc).2) hr⟩
  · have hchoice := h.choice
    cases n with
    | ifElse cond b xs e =>
      simp only [isTidyChoice, Bool.and_eq_true, List.all_eq_true] at hchoice ⊢
      refine ⟨?_, fun x hx => ?_⟩
      · exact ((hpart cond (by simp [Node.children])).test kindTest_isExpression).trans hchoice.1
      · exact ((hpart x (by simp [Node.children, hx])).test kindTest_isElseIfNode).trans (hchoice.2 x hx)
    | _ => rfl

/-- A change keeps the order if the nodes that it touches are fit for what they have become. -/
theorem Orderly.advance (hsize : t.cells.size ≤ t'.cells.size)
    (hkeep : ∀ i, i.index < t.cells.size → Reshaped (t.node i) (t'.node i))
    (hnew : ∀ i, t.cells.size ≤ i.index → i.index < t'.cells.size → isAdded (t'.node i) = true)
    (hfits : ∀ i, Known s root t' i → t'.node i ≠ t.node i → Formed s root t' (t'.node i))
    (htables : ∀ i a r, InTree s root i → t.node i = .table a r → isTidyTable t' (.table a r) = true) :
    Orderly s root t' := by
  refine ⟨Nat.le_trans ht.size hsize, fun i hi => ?_, fun i hlo hhi => ?_, fun i hi => ?_, fun i hi => ?_⟩
  · exact (ht.old i hi).trans (hkeep i (Nat.lt_of_lt_of_le hi ht.size))
  · by_cases hlt : i.index < t.cells.size
    · have hadded := ht.new i hlo hlt
      rw [(hkeep i hlt).eq]
      · exact hadded
      · cases hn : t.node i <;> first | rfl | simp [hn, isAdded] at hadded
    · exact hnew i (Nat.le_of_not_lt hlt) hhi
  · by_cases hsame : t'.node i = t.node i
    · have hknown : Known s root t i := by
        refine hi.imp_right fun h => ⟨h.1, Nat.lt_of_not_le fun hge => ?_⟩
        have hadded := hnew i hge h.2
        rw [hsame, Store.node, cell_outside hge] at hadded
        cases hadded
      rw [hsame]
      exact (ht.fits i hknown).reshaped hs ht hsize hkeep
    · exact hfits i hi hsame
  · have hi' := hkeep i (Nat.lt_of_lt_of_le (hs.inside hi) ht.size)
    cases hn : t'.node i with
    | table a r =>
      refine htables i a r hi ?_
      rw [hn] at hi'
      generalize t.node i = m at hi'
      cases hi'
      rfl
    | _ => rfl

theorem Orderly.tableLists (hi : InTree s root i) (hn : t.node i = .table a r) (hx : x = a ∨ x = r) :
    InTree s root x ∧ ∃ ys, t.node x = .list .records ys ∧
      ∀ y ∈ ys, Known s root t y ∧ isRecordNode (t.node y) = true := by
  have hmem : x ∈ (Node.table a r).children := by simpa [Node.children] using hx
  have hstart : s.node i = .table a r := hn ▸ (ht.reshaped hs hi).eq_start (by rw [hn]; rfl)
  have hparts := (ht.fits i (.inl hi)).parts
  rw [hn] at hparts
  obtain ⟨ys, hys⟩ := isList_eq (hparts x hmem).2
  have hx' : InTree s root x := hi.child (hstart ▸ hmem)
  refine ⟨hx', ys, hys, fun y hy => ?_⟩
  have hlist := (ht.fits x (.inl hx')).parts
  rw [hys] at hlist
  exact hlist y hy

theorem Orderly.table_reshaped (hi : InTree s root i) (hn : t.node i = .table a r)
    (hkeep : ∀ i, i.index < t.cells.size → Reshaped (t.node i) (t'.node i))
    (ha : t'.node a = t.node a ∨ ∀ x ∈ (t'.node a).items, isArrayRecordNode (t'.node x) = true)
    (hr : t'.node r = t.node r ∨ areRecords ((t'.node r).items.map t'.node) = true) :
    isTidyTable t' (.table a r) = true := by
  have htable := ht.tables i hi
  rw [hn] at htable
  simp only [isTidyTable, Bool.and_eq_true, List.all_eq_true] at htable ⊢
  refine ⟨?_, ?_⟩
  · obtain ha | ha := ha
    · rw [ha]
      intro x hx
      obtain ⟨-, ys, hys, hknown⟩ := ht.tableLists hs hi hn (.inl rfl)
      rw [hys] at hx htable
      have hx' := inside_of_node (ht.present hs (hknown x hx).1)
      exact ((hkeep x hx').test kindTest_isArrayRecordNode).trans (htable.1 x hx)
    · exact ha
  · obtain hr | hr := hr
    · rw [hr]
      obtain ⟨-, ys, hys, hknown⟩ := ht.tableLists hs hi hn (.inr rfl)
      rw [hys] at htable ⊢
      have hkept : ∀ x ∈ ys, Reshaped (t.node x) (t'.node x) :=
        fun x hx => hkeep x (inside_of_node (ht.present hs (hknown x hx).1))
      exact (areRecords_reshaped hkept).trans htable.2
    · exact hr

theorem Orderly.add (hn : isAdded n = true)
    (hparts : ∀ c ∈ n.children, Known s root t c ∧ (ruleFor false n).allows c (t.node c) = true)
    (hrule : ∃ r, partRule t false n = .ok r) :
    Orderly s root ⟨t.cells.push { node := n }⟩ ∧
      Known s root ⟨t.cells.push { node := n }⟩ ⟨t.cells.size⟩ := by
  have hgrows := grows_push t { node := n }
  have hnode : ∀ i : NodeId, i.index < t.cells.size →
      (Store.mk (t.cells.push { node := n })).node i = t.node i := by
    intro i hi
    rw [Store.node, hgrows.cell i hi]
    rfl
  have hkeep : ∀ i : NodeId, i.index < t.cells.size →
      Reshaped (t.node i) ((Store.mk (t.cells.push { node := n })).node i) := by
    intro i hi
    rw [hnode i hi]
    exact .same
  have hself : ∀ i : NodeId, t.cells.size ≤ i.index → i.index < (t.cells.push ({ node := n } : Cell)).size →
      (Store.mk (t.cells.push { node := n })).node i = n := by
    intro i hlo hhi
    obtain rfl : i = ⟨t.cells.size⟩ := by
      rw [Array.size_push] at hhi
      cases i
      simp only [NodeId.mk.injEq] at *
      omega
    rw [Store.node, cell_push_self]
  have hfits : Formed s root t n := by
    refine ⟨hparts, hrule, ?_⟩
    cases n <;> first | rfl | cases hn
  refine ⟨ht.advance hs hgrows.size hkeep (fun i hlo hhi => ?_) (fun i hi hne => ?_)
    fun i a r hi hn' => ?_, ?_⟩
  · rw [hself i hlo hhi]
    exact hn
  · have hge : t.cells.size ≤ i.index := Nat.le_of_not_lt fun hlt => hne (hnode i hlt)
    rw [hself i hge ?_]
    · exact hfits.reshaped hs ht hgrows.size hkeep
    · cases hi with
      | inl hi => exact absurd (Nat.lt_of_lt_of_le (hs.inside hi) ht.size) (Nat.not_lt.mpr hge)
      | inr hi => exact hi.2
  · obtain ⟨ha, -⟩ := ht.tableLists hs hi hn' (.inl rfl)
    obtain ⟨hr, -⟩ := ht.tableLists hs hi hn' (.inr rfl)
    exact ht.table_reshaped hs hi hn' hkeep
      (.inl (hnode a (Nat.lt_of_lt_of_le (hs.inside ha) ht.size)))
      (.inl (hnode r (Nat.lt_of_lt_of_le (hs.inside hr) ht.size)))
  · exact .inr ⟨ht.size, by simp⟩

theorem Orderly.setNode (hi : InTree s root i) (hm : Reshaped (t.node i) m) (hfits : Formed s root t m)
    (htables : ∀ j a r, InTree s root j → t.node j = .table a r → (a = i → ∀ x ∈
      m.items, isArrayRecordNode (t.node x) = true) ∧ (r = i → areRecords (m.items.map t.node) = true)) :
    Orderly s root (t.setNode i m) := by
  have hlt : i.index < t.cells.size := Nat.lt_of_lt_of_le (hs.inside hi) ht.size
  have hself : (t.setNode i m).node i = m := node_setNode_self hlt
  have hsize : (t.setNode i m).cells.size = t.cells.size := size_setNode t i m
  have hkeep : ∀ j : NodeId, j.index < t.cells.size → Reshaped (t.node j) ((t.setNode i m).node j) := by
    intro j _
    by_cases hj : j = i
    · subst hj
      rw [hself]
      exact hm
    · rw [node_setNode_of_ne hj]
      exact .same
  have hfits' := hfits.reshaped hs ht (Nat.le_of_eq hsize.symm) hkeep
  refine ht.advance hs (Nat.le_of_eq hsize.symm) hkeep (fun j hlo hhi => ?_) (fun j hj hne => ?_)
    fun j a r hj hn => ?_
  · exact absurd (hsize ▸ hhi) (Nat.not_lt.mpr hlo)
  · by_cases hji : j = i
    · rw [hji, hself]
      exact hfits'
    · exact absurd (node_setNode_of_ne hji) hne
  · obtain ⟨harrays, hrecords⟩ := htables j a r hj hn
    have hitems : ∀ x ∈ m.items, Reshaped (t.node x) ((t.setNode i m).node x) := fun x hx =>
      hkeep x (inside_of_node (ht.present hs (hfits.parts x ((items_sublist_children m).subset hx)).1))
    refine ht.table_reshaped hs hj hn hkeep ?_ ?_
    · by_cases ha : a = i
      · refine .inr fun x hx => ?_
        rw [ha, hself] at hx
        exact ((hitems x hx).test kindTest_isArrayRecordNode).trans (harrays ha x hx)
      · exact .inl (node_setNode_of_ne ha)
    · by_cases hr : r = i
      · refine .inr ?_
        rw [hr, hself, areRecords_reshaped hitems]
        exact hrecords hr
      · exact .inl (node_setNode_of_ne hr)

/-! ## Entries of a constructor -/

omit hs ht in
theorem validRecords_of_arrays (h : ∀ n ∈ ns, isArrayRecordNode n = true) : validRecords ns = true := by
  cases ns with
  | nil => rfl
  | cons n ns =>
    rw [validRecords, if_pos (h n List.mem_cons_self), List.all_eq_true]
    exact fun m hm => h m (List.mem_cons_of_mem _ hm)

omit hs ht in
theorem areRecords_append :
    areRecords (ns ++ [n]) = (ns.all isTableRecordNode && (isTableRecordNode n || isOpenEnd n)) := by
  simp [areRecords]

omit hs ht in
theorem validRecords_of_areRecords (h : areRecords ns = true) : validRecords ns = true := by
  obtain ⟨hdrop, hlast⟩ := Bool.and_eq_true_iff.mp h
  cases ns with
  | nil => rfl
  | cons n ns =>
    have hfirst : isArrayRecordNode n = false := by
      cases ns with
      | nil => cases n <;> first | rfl | simp [isTableRecordNode, isOpenEnd] at hlast
      | cons m ns =>
        have hn := List.all_eq_true.mp hdrop n (by simp)
        cases n <;> first | rfl | cases hn
    rw [validRecords, hfirst]
    exact hdrop

omit hs ht in
theorem tableRecords_of_closed (h : areRecords ns = true) (hlast : ∀ n ∈ ns.getLast?, isOpenEnd n = false) :
    ns.all isTableRecordNode = true := by
  obtain rfl | ⟨ns, n, rfl⟩ := List.eq_nil_or_concat ns
  · rfl
  · rw [List.concat_eq_append] at h hlast ⊢
    rw [areRecords_append, hlast n (by simp), Bool.or_false] at h
    rw [List.all_append, List.all_cons, List.all_nil, Bool.and_true]
    exact h

omit hs ht in
theorem isRecordNode_of_areRecords (h : areRecords ns = true) (hn : n ∈ ns) : isRecordNode n = true := by
  have hkind : isTableRecordNode n = true ∨ isOpenEnd n = true := by
    obtain rfl | ⟨ns, m, rfl⟩ := List.eq_nil_or_concat ns
    · cases hn
    · rw [List.concat_eq_append, areRecords_append, Bool.and_eq_true, Bool.or_eq_true] at h
      rw [List.concat_eq_append] at hn
      cases List.mem_append.mp hn with
      | inl hn => exact .inl (List.all_eq_true.mp h.1 n hn)
      | inr hn => exact List.mem_singleton.mp hn ▸ h.2
  cases n <;> first | rfl | simp [isTableRecordNode, isOpenEnd] at hkind

theorem Orderly.setRecords {ys : List NodeId} (hi : InTree s root i) (hn : t.node i = .list .records xs)
    (hys : ∀ y ∈ ys, Known s root t y ∧ isRecordNode (t.node y) = true)
    (hvalid : validRecords (ys.map t.node) = true)
    (htables : ∀ j a r, InTree s root j → t.node j = .table a r →
      (a = i → ∀ x ∈ ys, isArrayRecordNode (t.node x) = true) ∧ (r = i → areRecords (ys.map t.node) = true)) :
    Orderly s root (t.setNode i (.list .records ys)) := by
  have hrule : partRule t false (.list .records ys) = .ok ⟨[], some isRecordNode⟩ := by
    simp only [partRule, hvalid]
    rfl
  exact ht.setNode hs hi (hn ▸ .records) ⟨hys, ⟨_, hrule⟩, rfl⟩ htables

end

/-! ## Choices -/

/-- The parts of a choice, each of its own kind. -/
structure ChoiceParts (s : Store) (root : NodeId) (t : Store) (c b : NodeId) (xs : List NodeId) (e : NodeId) :
    Prop where
  condition : Known s root t c ∧ (t.node c).isExpression = true
  thenBlock : Known s root t b ∧ (t.node b).isList .statements = true
  elseIfs : ∀ x ∈ xs, Known s root t x ∧ isElseIfNode (t.node x) = true
  elseBlock : Known s root t e ∧ (t.node e).isList .statements = true

theorem ne_of_kinds {y : NodeId} {g : Node → Bool} (hx : f (t.node x) = true) (hy : g (t.node y) = true)
    (hfg : ∀ n, f n = true → g n = false) : y ≠ x := by
  rintro rfl
  rw [hfg _ hx] at hy
  cases hy

theorem expression_not_list : ∀ n : Node, n.isExpression = true → n.isList .statements = false := by
  intro n h
  cases n <;> first | rfl | cases h

theorem elseIf_not_list : ∀ n, isElseIfNode n = true → n.isList .statements = false := by
  intro n h
  cases n <;> first | rfl | cases h

theorem elseIf_not_expression : ∀ n, isElseIfNode n = true → n.isExpression = false := by
  intro n h
  cases n <;> first | rfl | cases h

theorem Formed.choiceParts (h : Formed s root t (.ifElse c b xs e)) : ChoiceParts s root t c b xs e := by
  have hchoice := h.choice
  simp only [isTidyChoice, Bool.and_eq_true, List.all_eq_true] at hchoice
  have hpart : ∀ x ∈ (Node.ifElse c b xs e).children, Known s root t x := fun x hx => (h.parts x hx).1
  have hb := (h.parts b (by simp [Node.children])).2
  have he := (h.parts e (by simp [Node.children])).2
  refine ⟨⟨hpart c (by simp [Node.children]), hchoice.1⟩, ⟨hpart b (by simp [Node.children]), ?_⟩,
    fun x hx => ⟨hpart x (by simp [Node.children, hx]), hchoice.2 x hx⟩,
      hpart e (by simp [Node.children]), ?_⟩
  · by_cases hbe : e = b
    · subst hbe
      simpa [ruleFor, PartRule.allows] using hb
    · simpa [ruleFor, PartRule.allows, hbe] using hb
  · simpa [ruleFor, PartRule.allows] using he

theorem ChoiceParts.formed (h : ChoiceParts s root t c b xs e) : Formed s root t (.ifElse c b xs e) := by
  have hcb := ne_of_kinds h.condition.2 h.thenBlock.2 expression_not_list
  have hce := ne_of_kinds h.condition.2 h.elseBlock.2 expression_not_list
  refine ⟨fun x hx => ?_, ⟨_, rfl⟩, ?_⟩
  · simp only [Node.children, List.cons_append, List.mem_cons, List.mem_append, List.not_mem_nil,
      or_false] at hx
    obtain rfl | rfl | hx | rfl := hx
    · refine ⟨h.condition.1, ?_⟩
      simpa [ruleFor, PartRule.allows, hcb, hce] using h.condition.2
    · refine ⟨h.thenBlock.1, allows_of ?_ (.inl ⟨(x, Node.isList .statements), by simp [ruleFor], rfl⟩)⟩
      simp [ruleFor, hcb.symm, h.thenBlock.2]
    · have hxc := ne_of_kinds (h.elseIfs x hx).2 h.condition.2 elseIf_not_expression
      have hxb := ne_of_kinds (h.elseIfs x hx).2 h.thenBlock.2 elseIf_not_list
      have hxe := ne_of_kinds (h.elseIfs x hx).2 h.elseBlock.2 elseIf_not_list
      refine ⟨(h.elseIfs x hx).1, ?_⟩
      simpa [ruleFor, PartRule.allows, hxc, hxb, hxe] using (h.elseIfs x hx).2
    · refine ⟨h.elseBlock.1, ?_⟩
      simpa [ruleFor, PartRule.allows] using h.elseBlock.2
  · simp only [isTidyChoice, Bool.and_eq_true, List.all_eq_true]
    exact ⟨h.condition.2, fun x hx => (h.elseIfs x hx).2⟩

theorem ChoiceParts.branch (h : ChoiceParts s root t c b xs e) :
    ∀ x ∈ (Node.elseIf c b).children, Known s root t x ∧
      (ruleFor false (.elseIf c b)).allows x (t.node x) = true := by
  have hcb := ne_of_kinds h.condition.2 h.thenBlock.2 expression_not_list
  intro x hx
  rcases List.mem_pair.mp hx with rfl | rfl
  · refine ⟨h.condition.1, ?_⟩
    simpa [ruleFor, PartRule.allows, hcb] using h.condition.2
  · exact ⟨h.thenBlock.1, allows_second.trans h.thenBlock.2⟩

end LuaLift.Proofs
