import Mathlib.Data.Nat.Find
import LuaLift.Proofs.Lifting

/-! # Statements of instructions

A legible instruction that stands inside a block is made into a statement: a plain tree, a return
of plain trees (`Content`), or the assignment of a function (`Closure`). -/
namespace LuaLift.Proofs
open Bytecode Tree Pass Lift

/-- A statement that holds no function. The address of a return is changed later. -/
inductive Content (s : Store) (i : NodeId) : Prop
  | plain (h : Plain s s.cells.size i) (hs : (s.node i).isStatement = true)
  | ret {vs : NodeId} (h : s.node i = .ret vs) (hv : Has s (Node.isList .expressions) vs)

/-- Statement `i` assigns the function `g`. -/
structure Closure (s : Store) (i g : NodeId) : Prop where
  assigns : ∃ kind es ds, s.node i = .assignment kind es ds ∧
    s.cell es = ⟨.list .expressions [g], none, false⟩ ∧ Has s (Node.isList .targets) ds ∧
    PartsFit s (.assignment kind es ds)
  function : ∃ as ss scope, s.cell g = ⟨.function as ss scope, none, false⟩

variable {s s' : Store} {x g : NodeId} {fits : Node → Bool}

theorem Content.keep (hk : Keeps s s') (hsize : s.cells.size ≤ s'.cells.size)
    (hret : ∀ vs, s.node x = .ret vs → s'.node x = .ret vs) (h : Content s x) : Content s' x := by
  cases h with
  | plain h hs => exact .plain (h.keep hk hsize) (by rw [hk.node h.inner]; exact hs)
  | ret h hv => exact .ret (hret _ h) (hv.keep hk hsize)

/-- The function may have changed, as long as it still is one. -/
theorem Closure.keepAs (hk : Keeps s s') (hsize : s.cells.size ≤ s'.cells.size)
    (hg : ∃ as ss scope, s'.cell g = ⟨.function as ss scope, none, false⟩) (h : Closure s x g) :
    Closure s' x g := by
  obtain ⟨⟨kind, es, ds, hx, hes, hds, hfit⟩, -⟩ := h
  have hnode : s'.node x = s.node x := hk.node (by rw [hx]; rfl)
  have hes' : s'.cell es = s.cell es := hk es (by rw [Store.node, hes]; rfl)
  refine ⟨⟨kind, es, ds, hnode.trans hx, hes'.trans hes, hds.keep hk hsize, ?_⟩, hg⟩
  refine hfit.congr (.inl rfl) fun c hc => ?_
  rcases List.mem_pair.mp hc with rfl | rfl
  · rw [Store.node, hes']
    rfl
  · exact hk.node hds.plain.inner

theorem Closure.keep (hk : Keeps s s') (hsize : s.cells.size ≤ s'.cells.size)
    (hg : s'.cell g = s.cell g) (h : Closure s x g) : Closure s' x g := by
  obtain ⟨as, ss, scope, hcell⟩ := h.function
  exact h.keepAs hk hsize ⟨as, ss, scope, hg.trans hcell⟩

theorem Closure.unique {g' : NodeId} (h : Closure s x g) (h' : Closure s x g') : g = g' := by
  obtain ⟨⟨_, es, _, hx, hes, -, -⟩, -⟩ := h
  obtain ⟨⟨_, es', _, hx', hes', -, -⟩, -⟩ := h'
  rw [hx] at hx'
  obtain ⟨-, rfl, -⟩ := Node.assignment.inj hx'
  rw [hes] at hes'
  simpa using hes'

/-! ## Addresses of statements -/

/-- A store in which a node has got another address. -/
structure Readdressed (s : Store) (x : NodeId) (s' : Store) : Prop where
  size : s'.cells.size = s.cells.size
  cell : ∀ i, i ≠ x → s'.cell i = s.cell i
  self : s'.node x = s.node x

theorem Readdressed.node (h : Readdressed s x s') (i : NodeId) : s'.node i = s.node i := by
  by_cases hi : i = x
  · rw [hi, h.self]
  · rw [Store.node, h.cell i hi, Store.node]

variable {kind : AssignmentKind} {m : Edit NodeId} {xs rest : List NodeId} {f : List NodeId → Edit NodeId}
  {d : Nat} {n : Node} {i ds es : NodeId} {o : Opcode} {child : Prototype → Edit NodeId}

/-- A plain tree in which a node does not occur does not depend on its address. -/
theorem Plain.readdress (hr : Readdressed s x s') (hx : ∀ e ≤ d, ¬ Plain s e x) (h : Plain s d i) :
    Plain s' d i := by
  induction d generalizing i with
  | zero => exact h.elim
  | succ d ih =>
    obtain ⟨hi, hs, hc⟩ := h
    refine ⟨hr.node i ▸ hi, hr.node i ▸ hs.congr (.inl hi) fun c _ => hr.node c, fun c hm => ?_⟩
    rw [hr.node i] at hm
    have hne : c ≠ x := fun he => hx d (Nat.le_succ d) (he ▸ (hc c hm).2)
    refine ⟨?_, ih (fun e he => hx e (by omega)) (hc c hm).2⟩
    rw [Quiet, hr.node c, hr.cell c hne]
    exact (hc c hm).1

theorem Has.readdress (hr : Readdressed s x s') (hx : ∀ e, ¬ Plain s e x) (h : Has s fits i) :
    Has s' fits i := by
  have hne : i ≠ x := fun he => hx _ (he ▸ h.plain)
  refine ⟨hr.size ▸ h.plain.readdress hr fun e _ => hx e, ?_, hr.node i ▸ h.fits⟩
  rw [Quiet, hr.node i, hr.cell i hne]
  exact h.quiet

theorem Content.readdress (hr : Readdressed s x s') (h : Content s x) : Content s' x := by
  classical
  cases h with
  | ret h hv =>
    refine .ret (hr.self.trans h) (hv.readdress hr fun e he => ?_)
    have := he.inner
    rw [h] at this
    cases this
  | plain h hs =>
    refine .plain ?_ (hr.self ▸ hs)
    -- At the least depth that the tree has, its root is none of its other nodes.
    have hex : ∃ d, Plain s d x := ⟨_, h⟩
    have hfind := Nat.find_spec hex
    have hle : Nat.find hex ≤ s'.cells.size := hr.size ▸ Nat.find_min' hex h
    have hmin : ∀ e < Nat.find hex, ¬ Plain s e x := fun e he => Nat.find_min hex he
    generalize Nat.find hex = d at hfind hle hmin
    refine Plain.keep (fun _ _ => rfl) ?_ hle
    match d, hfind with
    | d + 1, ⟨hi, hs, hc⟩ =>
      refine ⟨hr.self ▸ hi, hr.self ▸ hs.congr (.inl hi) fun c _ => hr.node c, fun c hm => ?_⟩
      rw [hr.self] at hm
      have hne : c ≠ x := fun he => hmin d (Nat.lt_succ_self d) (he ▸ (hc c hm).2)
      refine ⟨?_, (hc c hm).2.readdress hr fun e he => hmin e (by omega)⟩
      rw [Quiet, hr.node c, hr.cell c hne]
      exact (hc c hm).1

theorem Closure.not_plain (h : Closure s x g) : ¬ Plain s d x := by
  obtain ⟨⟨kind, es, ds, hx, hes, -, -⟩, as, ss, scope, hg⟩ := h
  intro hp
  -- All parts of a plain tree are inner nodes, and a function is none.
  match d, hp with
  | d + 1, ⟨_, _, hc⟩ =>
    have hes' := (hc es (by rw [hx]; exact List.mem_cons_self)).2
    match d, hes' with
    | d + 1, ⟨_, _, hc'⟩ =>
      have hin := (hc' g (by rw [Store.node, hes]; exact List.mem_cons_self)).2.inner
      rw [Store.node, hg] at hin
      cases hin

theorem Content.not_closure (h : Content s x) : ¬ Closure s x g := by
  intro hc
  cases h with
  | plain h _ => exact hc.not_plain h
  | ret h _ =>
    obtain ⟨⟨_, _, _, hx, -⟩, -⟩ := hc
    rw [h] at hx
    cases hx

theorem Closure.readdress (hr : Readdressed s x s') (h : Closure s x g) : Closure s' x g := by
  have hplain : ∀ e, ¬ Plain s e x := fun e => h.not_plain
  obtain ⟨⟨kind, es, ds, hx, hes, hds, hfit⟩, as, ss, scope, hg⟩ := h
  have hne : ∀ {i n}, s.cell i = ⟨n, none, false⟩ → n ≠ .assignment kind es ds → i ≠ x := by
    rintro i n hi hn rfl
    rw [Store.node, hi] at hx
    exact hn hx
  refine ⟨⟨kind, es, ds, hr.self.trans hx, (hr.cell es (hne hes (by simp))).trans hes,
    hds.readdress hr hplain, hfit.congr (.inl rfl) fun c _ => hr.node c⟩,
    as, ss, scope, (hr.cell g (hne hg (by simp))).trans hg⟩

/-! ## Steps that make a statement -/

/-- A step adds a statement without functions. -/
def States (m : Edit NodeId) (w : Work Unit) : Prop :=
  Succeeds m w fun i w' => Grows w.store w'.store ∧ w.store.cells.size ≤ i.index ∧ Content w'.store i

variable {w : Work Unit} {p : Prototype} {i : Instruction} {a : Int}

theorem Makes.states {f : NodeId → Edit NodeId} (h : Makes m w fits)
    (hf : ∀ x w1, Grows w.store w1.store → Has w1.store fits x → States (f x) w1) : States (m >>= f) w :=
  Succeeds.next h fun x w1 hx => (hf x w1 hx.1 hx.2).mono fun _ _ hj =>
    ⟨hx.1.trans hj.1, Nat.le_trans hx.1.size hj.2.1, hj.2.2⟩

theorem MakesAll.states {m : Edit (List NodeId)} (h : MakesAll m w fits)
    (hf : ∀ xs w1, Grows w.store w1.store → (∀ x ∈ xs, Has w1.store fits x) → States (f xs) w1) :
    States (m >>= f) w :=
  Succeeds.next h fun x w1 hx => (hf x w1 hx.1 hx.2).mono fun _ _ hj =>
    ⟨hx.1.trans hj.1, Nat.le_trans hx.1.size hj.2.1, hj.2.2⟩

theorem Makes.fresh (h : Makes (add n) w fits) :
    Succeeds (add n) w fun x w' =>
      Grows w.store w'.store ∧ w.store.cells.size ≤ x.index ∧ Has w'.store fits x := by
  obtain ⟨x, w', hr, hg, hx⟩ := h
  obtain ⟨rfl, rfl⟩ := returns_add hr
  exact ⟨_, _, hr, hg, Nat.le_refl _, hx⟩

theorem states_add (hi : isInner n = true) (hs : PartsFit w.store n)
    (hc : ∀ k ∈ n.children, Has w.store (fun _ => true) k) (hf : n.isStatement = true) : States (add n) w :=
  (makes_add hi hs hc hf).fresh.mono fun _ _ ⟨hg, hx, hs⟩ => ⟨hg, hx, .plain hs.plain hs.fits⟩

theorem makes_targets (hx : ∀ x ∈ xs, Has w.store Node.isVariable x) :
    Makes (addList .targets xs) w fun n => n == .list .targets xs :=
  makes_add rfl (.ofGeneral (f := Node.isVariable) rfl fun x hm => (hx x hm).fits)
    (fun x hm => (hx x hm).any) (by simp)

theorem isList_of_beq {kind : ListKind} (n : Node) (h : (n == .list kind xs) = true) :
    n.isList kind = true := by
  rw [eq_of_beq h]
  simp [Node.isList]

theorem partsFit_assignment {d : NodeId} (hes : (s.node es).isList .expressions = true)
    (hds : s.node ds = .list .targets (d :: rest)) : PartsFit s (.assignment kind es ds) := by
  have hr : partRule s true (.assignment kind es ds) =
      .ok ⟨[(ds, Node.isList .targets), (es, Node.isList .expressions)], none⟩ := by
    simp only [partRule, hds]
  exact .ofPair hr (by simp [Node.children, or_comm]) (by rw [hds]; rfl) hes

theorem states_assignment {ds es : List NodeId} (hne : ds ≠ [])
    (hds : ∀ x ∈ ds, Has w.store Node.isVariable x)
    (hes : ∀ x ∈ es, Has w.store Node.isExpression x) : States (assignment ds es) w := by
  obtain ⟨d, rest, rfl⟩ := List.exists_cons_of_ne_nil hne
  refine (makes_expressions hes).states fun e w1 hg1 he => ?_
  refine (makes_targets fun x hx => (hds x hx).grow hg1).states fun t w2 hg2 ht => ?_
  have he := he.grow hg2
  refine states_add rfl (partsFit_assignment he.fits (eq_of_beq ht.fits)) ?_ rfl
  simp [Node.children, he.any, ht.any]

theorem states_ret {vs : NodeId} (hv : Has w.store (Node.isList .expressions) vs) :
    States (add (.ret vs)) w := by
  have hg := grows_push w.store { node := .ret vs }
  refine succeeds_addCell ⟨hg, Nat.le_refl _, .ret ?_ (hv.grow hg)⟩
  rw [Store.node, cell_push_self]

/-! ## Statements -/

theorem makes_multres : Makes (add .multres) w Node.isVariable := makes_leaf rfl rfl rfl rfl

theorem makes_vararg : Makes (add .vararg) w Node.isExpression := makes_leaf rfl rfl rfl rfl

theorem states_range {first last : Int} (h0 : 0 ≤ first) (h : first ≤ last)
    (hf : ∀ xs w1, Grows w.store w1.store → xs ≠ [] → (∀ x ∈ xs, Has w1.store Node.isVariable x) →
      States (f xs) w1) :
    States (range a first last >>= f) w := by
  have hrange : Succeeds (range a first last) w fun xs w' => Grows w.store w'.store ∧
      xs ≠ [] ∧ ∀ x ∈ xs, Has w'.store Node.isVariable x := by
    refine (succeeds_require (by simpa using h) ?_).bind
    refine (succeeds_slots h0).mono fun xs w' ⟨hlen, hg, hx⟩ => ⟨hg, fun hnil => ?_, fun x hm => ?_⟩
    · rw [hnil, List.length_nil] at hlen
      omega
    · exact (hx x hm).weaken isVariable_of_isIdentifier
  refine hrange.next fun xs w1 ⟨hg, hne, hx⟩ => ?_
  exact (hf xs w1 hg hne hx).mono fun _ _ hj =>
    ⟨hg.trans hj.1, Nat.le_trans hg.size hj.2.1, hj.2.2⟩

theorem makesAll_callArguments {x d : Int} (hx : i.a = some x) (hx0 : 0 ≤ x) (hd : i.cd = some d) :
    MakesAll (callArguments a i) w Node.isExpression := by
  refine succeeds_operand hx (succeeds_operand hd ?_)
  split
  · refine Succeeds.next (makesAll_slots (by omega)) fun xs v1 ⟨hg1, hxs⟩ => ?_
    refine Succeeds.next makes_multres fun m v2 ⟨hg2, hm⟩ => .pure ⟨hg1.trans hg2, fun y hy => ?_⟩
    rcases List.mem_append.mp hy with hy | hy
    · exact ((hxs y hy).grow hg2).expression
    · rw [List.mem_singleton.mp hy]
      exact hm.expression
  · exact (makesAll_slots (by omega)).mono fun xs v1 hxs =>
      ⟨hxs.1, fun y hy => (hxs.2 y hy).expression⟩

theorem states_results {x b : Int} {c : NodeId} (hx : 0 ≤ x) (hb : 0 ≤ b) (h1 : b ≠ 1)
    (hc : Has w.store Node.isExpression c) :
    States (if b = 0 then do assignment [← add .multres] [c]
      else if b = 1 then return c
      else do assignment (← range a x (x + b - 2)) [c]) w := by
  split
  · refine makes_multres.states fun m w1 hg hm => ?_
    exact states_assignment (by simp) (by simpa using hm) (by simpa using hc.grow hg)
  · refine states_range hx (by omega) fun xs w1 hg hne hxs => ?_
    exact states_assignment hne hxs (by simpa using hc.grow hg)

theorem states_call (h : Legible p i) (ho : i.op = o)
    (hk : o = .callm ∨ o = .call ∨ o = .callmt ∨ o = .callt) : States (callStatement a i) w := by
  have hshape : i.shape = o.shape := by rw [Instruction.shape, ho]
  have hkinds : o.shape.a = some .base ∧ o.shape.cd = some .literal := by
    rcases hk with rfl | rfl | rfl | rfl <;> exact ⟨rfl, rfl⟩
  obtain ⟨x, hx, hxf⟩ := h.operandA (hshape ▸ hkinds.1)
  obtain ⟨d, hd, -⟩ := h.operandCD (hshape ▸ hkinds.2)
  have hx0 : 0 ≤ x := by simpa [valueFits] using hxf
  refine succeeds_operand hx ?_
  refine (makes_variable hx0).states fun f w1 _ hf => ?_
  refine (makesAll_callArguments hx hx0 hd).states fun as w2 hg2 has => ?_
  refine (makes_expressions has).states fun l w3 hg3 hl => ?_
  refine (makes_call ((hf.grow hg2).grow hg3) hl).fresh.next ?_
  rintro c w4 ⟨hg4, hnew, hc⟩
  have hexpr : Has w4.store Node.isExpression c := hc.weaken fun n hn => by simp_all
  have hlater : ∀ {m : Edit NodeId}, States m w4 → Succeeds m w4 fun y w' =>
      Grows w3.store w'.store ∧ w3.store.cells.size ≤ y.index ∧ Content w'.store y :=
    fun hm => hm.mono fun y w' hy => ⟨hg4.trans hy.1, Nat.le_trans hg4.size hy.2.1, hy.2.2⟩
  split
  · rename_i hcode
    have hb : i.shape.b = some .literal := by
      rw [hshape]
      rw [h.code, ho] at hcode
      rcases hk with rfl | rfl | rfl | rfl
      · rfl
      · rfl
      · exact absurd hcode (by decide)
      · exact absurd hcode (by decide)
    obtain ⟨b, hib, hbf⟩ := h.operandB hb
    refine succeeds_operand hib ?_
    by_cases h1 : b = 1
    · rw [if_neg (by omega), if_pos h1]
      exact .pure ⟨hg4, hnew, .plain hc.plain (Bool.and_eq_true .. ▸ hc.fits).1⟩
    · exact hlater (states_results hx0 (by simpa [valueFits] using hbf) h1 hexpr)
  · refine hlater ?_
    exact (makes_expressions (by simpa using hexpr)).states fun l w5 _ hl => states_ret hl

theorem states_vararg (h : Legible p i) (ho : i.op = .varg) : States (varargStatement a i) w := by
  have hshape : i.shape = Opcode.shape .varg := by rw [Instruction.shape, ho]
  obtain ⟨x, hx, hxf⟩ := h.operandA (show i.shape.a = some .base from hshape ▸ rfl)
  obtain ⟨b, hb, -⟩ := h.operandB (show i.shape.b = some .literal from hshape ▸ rfl)
  refine succeeds_operand hx (succeeds_operand hb ?_)
  dsimp only
  split
  · refine makes_multres.states fun m w1 _ hm => ?_
    refine makes_vararg.states fun v w2 hg hv => ?_
    exact states_assignment (by simp) (by simpa using hm.grow hg) (by simpa using hv)
  · refine states_range (by simpa [valueFits] using hxf) (by omega) fun xs w1 _ hne hxs => ?_
    refine makes_vararg.states fun v w2 hg hv => ?_
    exact states_assignment hne (fun y hy => (hxs y hy).grow hg) (by simpa using hv)

theorem states_return (h : Legible p i) (ho : i.op = o) (hk : o = .retm ∨ o = .ret ∨ o = .ret0 ∨ o = .ret1) :
    States (returnStatement a i) w := by
  have hshape : i.shape = o.shape := by rw [Instruction.shape, ho]
  have hkinds : (o.shape.a = some .base ∨ o.shape.a = some .readBase) ∧
      o.shape.cd = some .literal := by
    rcases hk with rfl | rfl | rfl | rfl <;> exact ⟨by decide, rfl⟩
  obtain ⟨x, hx, hx0⟩ : ∃ x, i.a = some x ∧ 0 ≤ x := by
    rcases hkinds.1 with hk | hk
    all_goals
      obtain ⟨x, hx, hxf⟩ := h.operandA (hshape ▸ hk)
      exact ⟨x, hx, by simpa [valueFits] using hxf⟩
  obtain ⟨d, hd, -⟩ := h.operandCD (hshape ▸ hkinds.2)
  refine succeeds_operand hx (succeeds_operand hd ?_)
  split
  · refine (makesAll_slots hx0).states fun xs w1 _ hxs => ?_
    refine makes_multres.states fun m w2 hg hm => ?_
    refine (makes_expressions fun y hy => ?_).states fun l w3 _ hl => states_ret hl
    rcases List.mem_append.mp hy with hy | hy
    · exact ((hxs y hy).grow hg).expression
    · rw [List.mem_singleton.mp hy]
      exact hm.expression
  · refine (makesAll_slots hx0).states fun xs w1 _ hxs => ?_
    exact (makes_expressions fun y hy => (hxs y hy).expression).states fun l w2 _ hl => states_ret hl

/-! ## Assignments of one value -/

/-- Instructions that assign one value, which is no function. -/
def assignsValue (o : Opcode) : Bool :=
  (o.shape.a = some .dst || o.shape.a = some .upvalue) && o ≠ .fnew && !isTest o

theorem makes_assignedValue (h : Legible p i) (ho : i.op = o) (hk : assignsValue o = true) :
    Makes (assignedValue child p a i) w Node.isExpression := by
  have hshape : i.shape = o.shape := by rw [Instruction.shape, ho]
  have hcode : i.code = o.number := by rw [h.code, ho]
  unfold assignedValue
  rw [h.meaning, ho]
  cases o with
  | mov | not | unm | len => exact makes_unaryExpression h ho rfl
  | cat => exact makes_concatExpression h (hshape ▸ rfl) (hshape ▸ rfl)
  | uget =>
    obtain ⟨d, hd, hf⟩ := h.operandCD (show i.shape.cd = some .upvalue from hshape ▸ rfl)
    refine succeeds_operand hd ?_
    exact (makes_upvalue (by simpa [valueFits] using hf)).weaken isExpression_of_isVariable
  | usetv =>
    obtain ⟨d, hd, hf⟩ := h.operandCD (show i.shape.cd = some .var from hshape ▸ rfl)
    exact succeeds_operand hd (makes_operandSlot (by simpa [valueFits] using hf))
  | tnew =>
    refine (makes_records (.inl rfl) (by simp)).next fun x w1 _ hx => ?_
    refine (makes_records (.inl rfl) (by simp)).next fun y w2 hg hy => ?_
    exact makes_table (hx.grow hg) hy
  | tdup =>
    obtain ⟨d, hd, hf⟩ := h.operandCD (show i.shape.cd = some .table from hshape ▸ rfl)
    exact succeeds_operand hd (makes_tableCopy hf)
  | gget =>
    obtain ⟨d, hd, hf⟩ := h.operandCD (show i.shape.cd = some .text from hshape ▸ rfl)
    refine succeeds_operand hd ?_
    exact (makes_globalVariable hf).weaken isExpression_of_isVariable
  | addvn | subvn | mulvn | divvn | modvn | addnv | subnv | mulnv | divnv | modnv =>
    dsimp only
    rw [hcode, if_pos (by decide)]
    exact makes_binaryExpression h (hshape ▸ rfl) (.inr (hshape ▸ rfl))
  | addvv | subvv | mulvv | divvv | modvv | pow =>
    dsimp only
    rw [hcode, if_pos (by decide)]
    exact makes_binaryExpression h (hshape ▸ rfl) (.inl (hshape ▸ rfl))
  | kstr | kcdata | kshort | knum | kpri | usets | usetn | usetp =>
    dsimp only
    rw [hcode, if_neg (by decide), if_pos (by decide)]
    exact makes_constantOperand h (congrArg Shape.cd hshape) rfl
  | tgetv | tgetr =>
    dsimp only
    rw [hcode, if_neg (by decide), if_neg (by decide), if_pos (by decide)]
    exact (makes_tableElement h (hshape ▸ rfl) (hshape ▸ rfl) (.inl rfl)).weaken
      isExpression_of_isVariable
  | tgets | tgetb =>
    dsimp only
    rw [hcode, if_neg (by decide), if_neg (by decide), if_pos (by decide)]
    exact (makes_tableElement h (hshape ▸ rfl) (congrArg Shape.cd hshape) (.inr rfl)).weaken
      isExpression_of_isVariable
  | _ => cases hk

theorem slot_of_assigns (h : Legible p i) (ho : i.op = o)
    (hk : o.shape.a = some .dst ∨ o.shape.a = some .upvalue) : ∃ x, i.a = some x ∧ 0 ≤ x := by
  have hshape : i.shape = o.shape := by rw [Instruction.shape, ho]
  rcases hk with hk | hk
  all_goals
    obtain ⟨x, hx, hxf⟩ := h.operandA (hshape ▸ hk)
    exact ⟨x, hx, by simpa [valueFits] using hxf⟩

theorem states_variableAssignment (h : Legible p i) (ho : i.op = o) (hk : assignsValue o = true) :
    States (variableAssignment child p a i) w := by
  have hdst : o.shape.a = some .dst ∨ o.shape.a = some .upvalue := by
    simp only [assignsValue, Bool.and_eq_true, Bool.or_eq_true, decide_eq_true_eq] at hk
    exact hk.1.1
  obtain ⟨x, hx, hx0⟩ := slot_of_assigns h ho hdst
  refine (makes_assignedValue h ho hk).states fun v w1 _ hv => succeeds_operand hx ?_
  have hrest : ∀ {m : Edit NodeId}, Makes m w1 Node.isVariable →
      States (m >>= fun d => assignment [d] [v]) w1 := fun hm => hm.states fun d w2 hg hd =>
    states_assignment (by simp) (by simpa using hd) (by simpa using hv.grow hg)
  split
  · exact hrest (makes_variable hx0)
  · exact hrest (makes_upvalue hx0)

/-! ## Closures -/

/-- What a step that makes the statement of an instruction leaves. The functions that it makes are
as `fn` says of the store, the number of its first node and its own. -/
structure Stated (fn : Store → Nat → NodeId → Prop) (w : Work Unit) (r : Option NodeId)
    (w' : Work Unit) : Prop where
  grows : Grows w.store w'.store
  fresh : ∀ x, r = some x → w.store.cells.size ≤ x.index
  content : ∀ x, r = some x → Content w'.store x ∨ ∃ g, Closure w'.store x g
  closure : ∀ x g, r = some x → Closure w'.store x g →
    w.store.cells.size ≤ g.index ∧ g.index < x.index ∧
    ∀ s, Readdressed w'.store x s → fn s w.store.cells.size g

variable {fn : Store → Nat → NodeId → Prop} {child : Prototype → Edit NodeId}

theorem States.stated (h : States m w) : Succeeds (do return some (← m)) w (Stated fn w) := by
  refine Succeeds.next h fun x w1 ⟨hg, hx, hc⟩ => .pure ⟨hg, ?_, ?_, ?_⟩
  · rintro _ ⟨⟩
    exact hx
  · rintro _ ⟨⟩
    exact .inl hc
  · rintro _ g ⟨⟩ hclosure
    exact absurd hclosure hc.not_closure

/-- A step makes functions as `fn` says. -/
def MakesFunctions (fn : Store → Nat → NodeId → Prop) (child : Prototype → Edit NodeId)
    (p : Prototype) : Prop :=
  ∀ q, .child q ∈ p.complex → ∀ w, Succeeds (child q) w fun g w' =>
    Grows w.store w'.store ∧ w.store.cells.size ≤ g.index ∧
    (∃ as ss scope, w'.store.cell g = ⟨.function as ss scope, none, false⟩) ∧
    fn w'.store w.store.cells.size g

theorem closure_of_nodes {d : NodeId} (hx : s.node x = .assignment kind es ds)
    (hes : s.cell es = ⟨.list .expressions [g], none, false⟩)
    (hds : Has s (fun n => n == .list .targets (d :: rest)) ds)
    (hg : ∃ as ss scope, s.cell g = ⟨.function as ss scope, none, false⟩) : Closure s x g := by
  refine ⟨⟨kind, es, ds, hx, hes, hds.weaken isList_of_beq, ?_⟩, hg⟩
  refine partsFit_assignment ?_ (eq_of_beq hds.fits)
  rw [Store.node, hes]
  rfl

theorem succeeds_add_new : Succeeds (add n) w fun x w' =>
    Grows w.store w'.store ∧ x.index = w.store.cells.size ∧ w'.store.cell x = { node := n } :=
  succeeds_addCell ⟨grows_push _ _, rfl, cell_push_self⟩

theorem succeeds_closure (hgrow : ∀ {s s' lo g}, Grows s s' → fn s lo g → fn s' lo g)
    (hchild : MakesFunctions fn child p) (h : Legible p i) (ho : i.op = .fnew) :
    Succeeds (do return some (← variableAssignment child p a i)) w (Stated fn w) := by
  have hshape : i.shape = Opcode.shape .fnew := by rw [Instruction.shape, ho]
  obtain ⟨x, hx, hx0⟩ := slot_of_assigns h ho (.inl rfl)
  obtain ⟨d, hd, hf⟩ := h.operandCD (show i.shape.cd = some .proto from hshape ▸ rfl)
  obtain ⟨q, hq, hmem⟩ := child_of_fits hf
  have hvalue : Succeeds (assignedValue child p a i) w fun g w' =>
      Grows w.store w'.store ∧ w.store.cells.size ≤ g.index ∧
      (∃ as ss scope, w'.store.cell g = ⟨.function as ss scope, none, false⟩) ∧
      fn w'.store w.store.cells.size g := by
    unfold assignedValue
    rw [h.meaning, ho]
    exact succeeds_operand hd (succeeds_atPosition hq (hchild q hmem w)).bind
  unfold variableAssignment
  rw [hshape, bind_assoc]
  refine hvalue.next ?_
  rintro g w1 ⟨hg1, hnew, ⟨as, ss, scope, hcell⟩, hfn⟩
  have hin : g.index < w1.store.cells.size := inside_of_node (by rw [Store.node, hcell]; simp)
  rw [bind_assoc]
  refine succeeds_operand hx ?_
  rw [if_pos (show Opcode.fnew.shape.a = some .dst from rfl), bind_assoc]
  refine Succeeds.next (makes_variable hx0) ?_
  rintro t w2 ⟨hg2, ht⟩
  unfold assignment
  simp only [bind_assoc]
  refine succeeds_add_new.next ?_
  rintro e w3 ⟨hg3, -, he⟩
  have htargets : Makes (addList .targets [t]) w3 fun n => n == .list .targets [t] :=
    makes_targets (by simpa using ht.grow hg3)
  refine Succeeds.next htargets ?_
  rintro l w4 ⟨hg4, hl⟩
  refine succeeds_add_new.next ?_
  rintro y w5 ⟨hg5, hy, hyc⟩
  have hg15 := ((hg2.trans hg3).trans hg4).trans hg5
  have hg14 := (hg2.trans hg3).trans hg4
  have hecell : w5.store.cell e = ⟨.list .expressions [g], none, false⟩ := by
    have hein : e.index < w3.store.cells.size := inside_of_node (by rw [Store.node, he]; simp)
    rw [(hg4.trans hg5).cell e hein, he]
  have hclosure : Closure w5.store y g :=
    closure_of_nodes (by rw [Store.node, hyc]) hecell (hl.grow hg5)
      ⟨as, ss, scope, by rw [hg15.cell g hin, hcell]⟩
  refine .pure ⟨hg1.trans hg15, ?_, ?_, ?_⟩
  · rintro _ ⟨⟩
    have := (hg1.trans hg14).size
    omega
  · rintro _ ⟨⟩
    exact .inr ⟨g, hclosure⟩
  · rintro _ g' ⟨⟩ hclosure'
    obtain rfl : g' = g := hclosure'.unique hclosure
    have := hg14.size
    refine ⟨hnew, by omega, fun s hr => hgrow ⟨?_, fun j hj => ?_⟩ hfn⟩
    · rw [hr.size]
      exact hg15.size
    · rw [hr.cell j (by rintro rfl; omega), hg15.cell j hj]

/-! ## All instructions -/

/-- Jumps and ends of loops, which become exits. -/
def leavesBlock : Opcode → Bool
  | .jmp | .isnext | .fori | .forl | .iterl => true
  | _ => false

/-- Instructions of a compiler that no exit of a block is made of. -/
def isInBlock (o : Opcode) : Bool :=
  isCompiled o && !isTest o && !isIterator o && !leavesBlock o

theorem states_globalAssignment (h : Legible p i) (ho : i.op = .gset) :
    States (do
      let destination ← globalVariable p (← operand i.cd)
      assignment [destination] [← slot a (← operand i.a)]) w := by
  have hshape : i.shape = Opcode.shape .gset := by rw [Instruction.shape, ho]
  obtain ⟨x, hx, hxf⟩ := h.operandA (show i.shape.a = some .var from hshape ▸ rfl)
  obtain ⟨d, hd, hf⟩ := h.operandCD (show i.shape.cd = some .text from hshape ▸ rfl)
  refine succeeds_operand hd ((makes_globalVariable hf).states fun t w1 _ ht => ?_)
  refine succeeds_operand hx ?_
  refine (makes_operandSlot (by simpa [valueFits] using hxf)).states fun v w2 hg hv => ?_
  exact states_assignment (by simp) (by simpa using ht.grow hg) (by simpa using hv)

theorem states_elementAssignment {kind : OperandKind} (h : Legible p i) (ho : i.op = o)
    (ha : o.shape.a = some .var) (hb : o.shape.b = some .var) (hcd : o.shape.cd = some kind)
    (hk : kind = .var ∨ isConstantKind kind = true) :
    States (do
      let destination ← tableElement p a i
      assignment [destination] [← slot a (← operand i.a)]) w := by
  have hshape : i.shape = o.shape := by rw [Instruction.shape, ho]
  obtain ⟨x, hx, hxf⟩ := h.operandA (hshape ▸ ha)
  refine (makes_tableElement h (hshape ▸ hb) (hshape ▸ hcd) hk).states fun t w1 _ ht => ?_
  refine succeeds_operand hx ?_
  refine (makes_operandSlot (by simpa [valueFits] using hxf)).states fun v w2 hg hv => ?_
  exact states_assignment (by simp) (by simpa using ht.grow hg) (by simpa using hv)

theorem states_openAssignment (h : Legible p i) (ho : i.op = .tsetm) (hs : slotsFit i = true) :
    States (do
      let x ← operand i.a
      let key ← add .multres
      let table ← slot a (x - 1)
      let destination ← add (.element table key)
      assignment [destination] [← add .multres]) w := by
  have hshape : i.shape = Opcode.shape .tsetm := by rw [Instruction.shape, ho]
  obtain ⟨x, hx, -⟩ := h.operandA (show i.shape.a = some .base from hshape ▸ rfl)
  have h1 : 1 ≤ x := by simpa [slotsFit, ho, hx] using hs
  refine succeeds_operand hx (makes_multres.states fun k w1 _ hk => ?_)
  refine (makes_operandSlot (by omega)).states fun t w2 hg2 ht => ?_
  refine (makes_element ht (hk.grow hg2).expression).states fun d w3 hg3 hd => ?_
  refine makes_multres.states fun v w4 hg4 hv => ?_
  exact states_assignment (by simp) (by simpa using hd.grow hg4) (by simpa using hv.expression)

theorem states_nilAssignment (h : Legible p i) (ho : i.op = .knil) (hs : slotsFit i = true) :
    States (do
      let x ← operand i.a
      let destinations ← range a x (← operand i.cd)
      assignment destinations [← add (.primitive .nil)]) w := by
  have hshape : i.shape = Opcode.shape .knil := by rw [Instruction.shape, ho]
  obtain ⟨x, hx, hxf⟩ := h.operandA (show i.shape.a = some .base from hshape ▸ rfl)
  obtain ⟨y, hy, -⟩ := h.operandCD (show i.shape.cd = some .base from hshape ▸ rfl)
  have hle : x ≤ y := by simpa [slotsFit, ho, hx, hy] using hs
  refine succeeds_operand hx (succeeds_operand hy ?_)
  refine states_range (by simpa [valueFits] using hxf) hle fun xs w1 _ hne hxs => ?_
  have hnil : Makes (add (.primitive .nil)) w1 Node.isExpression := makes_leaf rfl rfl rfl rfl
  refine hnil.states fun v w2 hg2 hv => ?_
  exact states_assignment hne (fun x hx => (hxs x hx).grow hg2) (by simpa using hv)

/-- Every legible instruction inside a block has a statement, or says that it has none. -/
theorem succeeds_statement (hgrow : ∀ {s s' lo g}, Grows s s' → fn s lo g → fn s' lo g)
    (hchild : MakesFunctions fn child p) (h : Legible p i) (hs : slotsFit i = true) (ho : i.op = o)
    (hk : isInBlock o = true) : Succeeds (statement child p a i) w (Stated fn w) := by
  have hshape : i.shape = o.shape := by rw [Instruction.shape, ho]
  unfold statement
  rw [hshape, h.meaning, ho]
  by_cases hdst : o.shape.a = some .dst ∨ o.shape.a = some .upvalue
  · rw [if_pos hdst]
    by_cases hnew : o = .fnew
    · exact succeeds_closure hgrow hchild h (ho.trans hnew)
    · have hvalue : assignsValue o = true := by
        have htest : isTest o = false := by
          cases o <;> first | rfl | cases hk
        simp [assignsValue, hdst, hnew, htest]
      exact (states_variableAssignment h ho hvalue).stated
  · rw [if_neg hdst]
    have hjoin : ∀ {m : Edit NodeId}, States m w →
        Succeeds (do return some (← m)) w (Stated fn w) := fun hm => hm.stated
    cases o with
    | knil => simpa only [bind_assoc] using hjoin (states_nilAssignment h ho hs)
    | gset => simpa only [bind_assoc] using hjoin (states_globalAssignment h ho)
    | tsetv | tsetr =>
      simpa only [bind_assoc] using hjoin (states_elementAssignment h ho rfl rfl rfl (.inl rfl))
    | tsets | tsetb =>
      simpa only [bind_assoc] using hjoin (states_elementAssignment h ho rfl rfl rfl (.inr rfl))
    | tsetm => simpa only [bind_assoc] using hjoin (states_openAssignment h ho hs)
    | callm | call | callmt | callt => exact hjoin (states_call h ho (by simp))
    | varg => exact hjoin (states_vararg h ho)
    | retm | ret | ret0 | ret1 => exact hjoin (states_return h ho (by simp))
    | uclo | loop =>
      refine .pure ⟨.refl _, ?_, ?_, ?_⟩
      all_goals
        intros
        contradiction
    | _ => first | exact (hdst (by decide)).elim | cases hk

end LuaLift.Proofs
