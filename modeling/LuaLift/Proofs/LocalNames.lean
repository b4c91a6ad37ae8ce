import LuaLift.Proofs.Sequencing
import LuaLift.Pipeline

/-! # Naming the local variables of a function

The walk that names variables changes identifiers only (`Renames`), and it asks that addresses do
not decrease within a function. In a `Sequenced` tree they do not. -/
namespace LuaLift.Proofs
open Bytecode Tree Pass Lift Locals

/-- `v` is `s` with other identifiers in the place of identifiers. -/
structure Renames (s v : Store) : Prop where
  cell : ∀ i, isIdentifierNode (s.node i) = false → v.cell i = s.cell i
  identifier : ∀ i, isIdentifierNode (s.node i) = true → ∃ y, v.node i = .identifier y

/-- The walk is in a function and has come to address `a`; `us` belongs to the functions around. -/
structure Visiting (s : Store) (us : List Uses) (a : Int) (w : Work (List Uses)) : Prop where
  renames : Renames s w.store
  uses : ∃ u, w.own = u :: us ∧ u.debug.isSome = true ∧ u.address = a

variable {s v : Store} {us : List Uses} {a b : Int} {w : Work (List Uses)} {i x g : NodeId}
  {d e : Nat} {n : Node}

/-! ## Identifiers -/

theorem Renames.refl : Renames s s := by
  refine ⟨fun _ _ => rfl, fun i hi => ?_⟩
  generalize s.node i = n at hi
  cases n <;> first | exact ⟨_, rfl⟩ | cases hi

theorem Renames.node (h : Renames s v) (hi : isIdentifierNode (s.node i) = false) :
    v.node i = s.node i := by
  rw [Store.node, h.cell i hi, Store.node]

theorem isIdentifierNode_eq (h : isIdentifierNode n = true) : ∃ y, n = .identifier y := by
  cases n <;> first | exact ⟨_, rfl⟩ | cases h

theorem Renames.was_identifier (h : Renames s v) {y : Identifier} (hv : v.node i = .identifier y) :
    isIdentifierNode (s.node i) = true := by
  by_contra hn
  rw [h.node (Bool.eq_false_iff.mpr hn)] at hv
  rw [hv] at hn
  exact hn rfl

theorem Renames.setNode (h : Renames s v) {y y' : Identifier} (hv : v.node i = .identifier y) :
    Renames s (v.setNode i (.identifier y')) := by
  have hs := h.was_identifier hv
  refine ⟨fun j hj => ?_, fun j hj => ?_⟩
  · rw [cell_setNode_of_ne, h.cell j hj]
    rintro rfl
    rw [hs] at hj
    cases hj
  · by_cases hji : j = i
    · subst hji
      exact ⟨y', by rw [Store.node, cell_setNode_self (inside_of_node (by rw [hv]; simp))]⟩
    · obtain ⟨z, hz⟩ := h.identifier j hj
      exact ⟨z, by rw [Store.node, cell_setNode_of_ne hji]; exact hz⟩

/-! ## Steps of the walk -/

theorem succeeds_own {σ : Type} {w : Work σ} {post : σ → Work σ → Prop} (h : post w.own w) :
    Succeeds own w post := ⟨_, _, rfl, h⟩

theorem succeeds_modifyOwn {σ : Type} {f : σ → σ} {w : Work σ} {post : Unit → Work σ → Prop}
    (h : post () { w with own := f w.own }) : Succeeds (modifyOwn f) w post := ⟨(), _, rfl, h⟩

theorem succeeds_current (h : Visiting s us a w) {post : Uses → Work (List Uses) → Prop}
    (hp : ∀ u, w.own = u :: us → u.debug.isSome = true → u.address = a → post u w) :
    Succeeds current w post := by
  obtain ⟨u, hu, hd, ha⟩ := h.uses
  refine (succeeds_own ?_).bind
  rw [hu]
  exact .pure (hp u hu hd ha)

theorem succeeds_modifyCurrent (h : Visiting s us a w) {f : Uses → Uses}
    (hf : ∀ u, (f u).debug = u.debug) (ha : ∀ u, u.address = a → (f u).address = b) :
    Succeeds (modifyCurrent f) w fun _ w' => Visiting s us b w' := by
  obtain ⟨u, hu, hd, hua⟩ := h.uses
  refine (succeeds_own ?_).bind
  rw [hu]
  exact ⟨(), _, rfl, h.renames, f u, rfl, by rw [hf]; exact hd, ha u hua⟩

theorem succeeds_nameUse (h : Visiting s us a w) {y : Variable} :
    Succeeds (nameUse y i) w fun _ w' => Visiting s us a w' := by
  refine (succeeds_node ?_).bind
  split
  · rename_i x hx
    exact succeeds_modifyStore ⟨h.renames.setNode hx, h.uses⟩
  · exact .pure h

theorem Succeeds.filterM {σ α : Type} {f : α → Pass σ Bool} (inv : Work σ → Prop) {xs : List α}
    {w : Work σ} (start : inv w) (step : ∀ x v, inv v → Succeeds (f x) v fun _ v' => inv v') :
    Succeeds (xs.filterM f) w fun _ w' => inv w' := by
  have haux : ∀ (acc : List α) (v : Work σ), inv v →
      Succeeds (xs.filterAuxM f acc) v fun _ w' => inv w' := by
    induction xs with
    | nil => exact fun acc v hv => .pure hv
    | cons x xs ih => exact fun acc v hv => (step x v hv).next fun _ v' hv' => ih _ v' hv'
  exact (haux [] w start).next fun _ w' hw => .pure hw

theorem succeeds_nameAt (h : Visiting s us a w) (b : Int) :
    Succeeds (nameAt b) w fun _ w' => Visiting s us a w' := by
  refine (succeeds_current h fun u hu hd ha => ?_).bind
  obtain ⟨debug, hdebug⟩ := Option.isSome_iff_exists.mp hd
  rw [hdebug]
  refine (Succeeds.filterM (Visiting s us a) h fun x v hv => ?_).next fun rest w' hw => ?_
  · obtain ⟨slot, uses⟩ := x
    dsimp only
    split
    · exact .pure hv
    · rename_i y _
      have huses : Succeeds (uses.forM (nameUse y)) v fun _ v' => Visiting s us a v' :=
        Succeeds.forM (fun _ v' => Visiting s us a v') hv fun _ _ _ _ hv' => succeeds_nameUse hv'
      split
      · exact huses.next fun _ v' hv' => .pure hv'
      · exact .pure hv
  · exact succeeds_modifyCurrent hw (fun _ => rfl) fun _ hu => hu

/-- Assigning identifiers ends the search for exactly the numbers that they have, be they slots or
upvalues. -/
theorem returns_forgetAll (s : Store) (u : Uses) (us : List Uses) (ids : List NodeId) :
    ∃ u', u'.debug = u.debug ∧ u'.address = u.address ∧
      Returns (forgetAll ids) ⟨s, u :: us⟩ () ⟨s, u' :: us⟩ ∧ ∀ use, use ∈ u'.pending ↔
        use ∈ u.pending ∧ ∀ i ∈ ids, ∀ x, s.node i = .identifier x → x.slot ≠ use.1 := by
  induction ids generalizing u with
  | nil => exact ⟨u, rfl, rfl, rfl, by simp⟩
  | cons i ids ih =>
    cases hn : s.node i with
    | identifier x =>
      obtain ⟨u', hd, ha, hr, hp⟩ := ih { u with pending := u.pending.filter (·.1 != x.slot) }
      refine ⟨u', hd, ha, .ofBind (a := ()) (Returns.ofBind (a := s.node i) rfl ?_) hr, ?_⟩
      · rw [hn]
        rfl
      · simp [hp, hn, and_assoc, @eq_comm _ x.slot]
    | _ =>
      obtain ⟨u', hd, ha, hr, hp⟩ := ih u
      refine ⟨u', hd, ha, .ofBind (a := ()) (Returns.ofBind (a := s.node i) rfl ?_) hr, ?_⟩
      · rw [hn]
        rfl
      · simp [hp, hn]

theorem succeeds_forgetAll (h : Visiting s us a w) (ids : List NodeId) :
    Succeeds (forgetAll ids) w fun _ w' => Visiting s us a w' := by
  obtain ⟨u, hu, hd, ha⟩ := h.uses
  obtain ⟨u', hd', ha', hr, -⟩ := returns_forgetAll w.store u us ids
  rw [← hu] at hr
  exact ⟨_, _, hr, h.renames, u', rfl, hd' ▸ hd, ha'.trans ha⟩

/-- The steps up to the naming of local variables. -/
def earlySteps : List Step := [.build, .validate, .moveTests, .nameLocals]

/-- Slot 0 holds `x` from address 3 on. The upvalue with the same number is assigned before. -/
def upvalueBesideSlot : Prototype :=
  { ofCode [withAD .kshort 0 5, withAD .usetp 0 2, withAD .ret1 0 2] with
    debug := { upvalues := ["u"], locals := [⟨"x", .visible, 3, 4⟩] } }

/-- Only the first statement assigns slot 0, and `x` is the first variable found behind it. But the
upvalue's assignment ends the search for the name of the slot: the returned slot is named and the
assigned one is not. -/
theorem assigned_upvalue_ends_search :
    Throughout WellFormed upvalueBesideSlot ∧
      let result := runSteps upvalueBesideSlot earlySteps .absent {}
      let node := result.2.node
      result.1 = .ok ⟨18⟩ ∧ (node ⟨1⟩).items = [⟨7⟩, ⟨12⟩, ⟨15⟩] ∧
      (node ⟨7⟩).fields = [⟨5⟩, ⟨6⟩] ∧ node ⟨6⟩ = .list .targets [⟨4⟩] ∧
      node ⟨4⟩ = .identifier { kind := .slot, slot := 0 } ∧
      (node ⟨12⟩).fields = [⟨10⟩, ⟨11⟩] ∧ node ⟨11⟩ = .list .targets [⟨9⟩] ∧
      node ⟨9⟩ = .identifier { name := some "u", kind := .upvalue, slot := 0 } ∧
      node ⟨15⟩ = .ret ⟨14⟩ ∧ (node ⟨14⟩).items = [⟨13⟩] ∧
      node ⟨13⟩ = .identifier
        { name := some "x", kind := .named, slot := 0, info := some ⟨"x", .visible, 3, 4⟩ } :=
  ⟨.tree (by decide) (by simp [upvalueBesideSlot, ofCode]), by decide +kernel⟩

theorem succeeds_arrive_quiet (h : (w.store.cell i).address = none ∨ isIdentifierNode (w.store.node i) = true)
    {post : Unit → Work (List Uses) → Prop} (hp : post () w) : Succeeds (arrive i) w post := by
  refine (succeeds_cell ?_).bind
  split
  · exact .pure hp
  · exact .pure hp
  · rename_i haddr hid
    rcases h with h | h
    · rw [haddr] at h
      cases h
    · obtain ⟨y, hy⟩ := isIdentifierNode_eq h
      exact absurd hy (hid y)

theorem succeeds_arrive (h : Visiting s us a w) (hi : isIdentifierNode (s.node i) = false)
    (ha : ∀ b, (s.cell i).address = some b → a ≤ b) :
    Succeeds (arrive i) w fun _ w' => Visiting s us ((s.cell i).address.getD a) w' := by
  have hcell := h.renames.cell i hi
  cases haddr : (s.cell i).address with
  | none => exact succeeds_arrive_quiet (.inl (by rw [hcell, haddr])) h
  | some b =>
    refine (succeeds_cell ?_).bind
    rw [hcell]
    split
    · rename_i y _ hy
      rw [Store.node, hy] at hi
      cases hi
    · rename_i hnone _
      rw [haddr] at hnone
      cases hnone
    · rename_i c hc _
      obtain rfl : b = c := Option.some.inj (haddr.symm.trans hc)
      refine (succeeds_current h fun u hu _ hua => ?_).bind
      refine (succeeds_require (by simpa [hua] using ha b haddr) ?_).bind
      refine (succeeds_modifyCurrent (f := fun u => { u with address := b }) h (fun _ => rfl)
        fun _ _ => rfl).next fun _ w' hw => ?_
      exact succeeds_nameAt hw b

/-- The counter of a loop is an identifier. -/
def CountsIdentifier (s : Store) (n : Node) : Prop :=
  ∀ x cs t o, n = .count x cs t o → isIdentifierNode (s.node x) = true

section
variable (h : Visiting s us a w) (hn : s.node i = n) (hi : isIdentifierNode n = false)
  (hne : n ≠ .absent) (hfun : ∀ as l scope, n ≠ .function as l scope) (hcount : CountsIdentifier s n)
  (ha : ∀ b, (s.cell i).address = some b → a ≤ b)
include h hn hi hfun ha

theorem succeeds_leave :
    Succeeds (namingVisitor.leave i) w fun _ w' => Visiting s us ((s.cell i).address.getD a) w' := by
  subst hn
  refine (succeeds_node ?_).bind
  rw [h.renames.node hi]
  split
  · rename_i hf
    exact absurd hf (hfun _ _ _)
  · exact (succeeds_arrive h hi ha)

include hcount

theorem succeeds_enter :
    Succeeds (namingVisitor.enter i) w fun _ w' => Visiting s us ((s.cell i).address.getD a) w' := by
  subst hn
  refine (succeeds_arrive h hi ha).next fun _ w1 h1 => ?_
  refine (succeeds_node ?_).bind
  rw [h1.renames.node hi]
  split
  · rename_i hf
    exact absurd hf (hfun _ _ _)
  · refine (succeeds_current h1 fun u _ _ _ => ?_).bind
    exact (succeeds_nameAt h1 _).next fun _ w2 h2 => succeeds_forgetAll h2 _
  · exact succeeds_forgetAll h1 _
  · rename_i x _ _ _ hc
    obtain ⟨y, hy⟩ := h1.renames.identifier x (hcount _ _ _ _ hc)
    refine (succeeds_node ?_).bind
    rw [hy]
    exact succeeds_modifyCurrent h1 (fun _ => rfl) fun _ hu => hu
  · rename_i hid
    rw [hid] at hi
    cases hi
  · exact .pure h1

include hne

/-- The walk through a node that is neither an identifier nor a function. A node with an address is
left at this address. -/
theorem succeeds_name_node {Q : Int → Prop}
    (hQ : ∀ a' b, Q a' → (s.cell i).address = some b → a' = b)
    (hc : ∀ v, Visiting s us ((s.cell i).address.getD a) v →
      Succeeds (n.children.forM (walk namingVisitor d)) v fun _ v' => ∃ a', Q a' ∧ Visiting s us a' v') :
    Succeeds (walk namingVisitor (d + 1) i) w fun _ w' => ∃ a', Q a' ∧ Visiting s us a' w' := by
  have hnode : ∀ {b v}, Visiting s us b v → v.store.node i = n := fun hv =>
    (hv.renames.node (by rw [hn]; exact hi)).trans hn
  refine Succeeds.bind (.pure ?_)
  refine (succeeds_node ?_).bind
  rw [hnode h]
  refine (succeeds_require (by simpa using hne) ?_).bind
  refine (succeeds_enter h hn hi hfun hcount ha).next fun _ w1 h1 => ?_
  refine (succeeds_node ?_).bind
  rw [hnode h1]
  refine (hc w1 h1).next fun _ w2 ⟨a', hq, h2⟩ => ?_
  refine (succeeds_leave h2 hn hi hfun fun b hb => Int.le_of_eq (hQ a' b hq hb)).mono
    fun _ w3 h3 => ⟨a', hq, ?_⟩
  cases haddr : (s.cell i).address with
  | none => rwa [haddr] at h3
  | some b =>
    rw [hQ a' b hq haddr]
    rwa [haddr] at h3

theorem succeeds_name_same
    (hc : ∀ c ∈ n.children, ∀ a v, Visiting s us a v →
      Succeeds (walk namingVisitor d c) v fun _ v' => Visiting s us a v') :
    Succeeds (walk namingVisitor (d + 1) i) w fun _ w' =>
      Visiting s us ((s.cell i).address.getD a) w' := by
  have hstep : Succeeds (walk namingVisitor (d + 1) i) w fun _ w' =>
      ∃ a', a' = (s.cell i).address.getD a ∧ Visiting s us a' w' := by
    refine succeeds_name_node h hn hi hne hfun hcount ha (fun a' b ha' hb => by rw [ha', hb]; rfl)
      fun v hv => (Succeeds.forM (fun _ v => Visiting s us _ v) hv fun _ c v' hm hv' => ?_).mono
        fun _ v' hv' => ⟨_, rfl, hv'⟩
    exact hc c (List.mem_of_getElem? hm) _ v' hv'
  exact hstep.mono fun _ w' ⟨_, rfl, h'⟩ => h'

end

theorem succeeds_name_identifier (h : Visiting s us a w) (hi : isIdentifierNode (s.node i) = true) :
    Succeeds (walk namingVisitor (d + 1) i) w fun _ w' => Visiting s us a w' := by
  obtain ⟨y, hy⟩ := h.renames.identifier i hi
  refine Succeeds.bind (.pure ?_)
  refine (succeeds_node ?_).bind
  rw [hy]
  have henter : Succeeds (namingVisitor.enter i) w fun _ w' => Visiting s us a w' := by
    refine Succeeds.bind (succeeds_arrive_quiet (.inr (by rw [hy]; rfl)) ?_)
    refine (succeeds_node ?_).bind
    rw [hy]
    dsimp only
    split
    · exact succeeds_modifyCurrent h (fun _ => rfl) fun _ hu => hu
    · exact .pure h
  refine henter.next fun _ w1 h1 => ?_
  obtain ⟨y1, hy1⟩ := h1.renames.identifier i hi
  refine (succeeds_node ?_).bind
  rw [hy1]
  refine Succeeds.bind (.pure ?_)
  refine (succeeds_node ?_).bind
  rw [hy1]
  exact succeeds_arrive_quiet (.inr (by rw [hy1]; rfl)) h1

theorem not_function_of_isInner (h : isInner n = true) (as l : NodeId) (scope : Scope) :
    n ≠ .function as l scope := by
  rintro rfl
  cases h

theorem not_absent_of_isInner (h : isInner n = true) : n ≠ .absent := by
  rintro rfl
  cases h

theorem countsIdentifier_of_isInner (h : isInner n = true) : CountsIdentifier s n := by
  rintro x cs t o rfl
  cases h

theorem succeeds_name_plain (hp : Plain s d i) (hq : Quiet s i) (hd : d ≤ e) (h : Visiting s us a w) :
    Succeeds (walk namingVisitor e i) w fun _ w' => Visiting s us a w' := by
  induction d generalizing i e a w with
  | zero => exact hp.elim
  | succ d ih =>
    obtain ⟨e, rfl⟩ : ∃ e', e = e' + 1 := ⟨e - 1, by omega⟩
    obtain ⟨hi, -, hc⟩ := hp
    by_cases hid : isIdentifierNode (s.node i) = true
    · exact succeeds_name_identifier h hid
    · have haddr : (s.cell i).address = none := hq.resolve_right hid
      have hstep := succeeds_name_same (d := e) h rfl (Bool.eq_false_iff.mpr hid) (not_absent_of_isInner hi)
        (not_function_of_isInner hi) (countsIdentifier_of_isInner hi) (by simp [haddr])
        fun c hm a v hv => ih (hc c hm).2 (hc c hm).1 (by omega) hv
      rwa [haddr] at hstep

/-! ## Statements, exits and blocks -/

/-- A step takes the walk on to the last of some addresses. -/
def Advances (s : Store) (us : List Uses) (go : Pass (List Uses) Unit) (as : List Int) : Prop :=
  ∀ a w, Visiting s us a w → (∀ b ∈ as, a ≤ b) →
    Succeeds go w fun _ w' => ∃ a' ∈ a :: as, Visiting s us a' w'

theorem advances_forM {α : Type} {go : α → Pass (List Uses) Unit} (A : α → List Int) {xs : List α}
    (step : ∀ x ∈ xs, Advances s us (go x) (A x)) (sorted : (xs.flatMap A).Pairwise (· ≤ ·)) :
    Advances s us (xs.forM go) (xs.flatMap A) := by
  induction xs with
  | nil => exact fun a w hw _ => .pure ⟨a, List.mem_cons_self, hw⟩
  | cons x xs ih =>
    intro a w hw hle
    obtain ⟨-, hrest, hcross⟩ := List.pairwise_append.mp sorted
    refine Succeeds.next (step x List.mem_cons_self a w hw fun b hb => hle b (List.mem_append_left _ hb))
      fun _ w1 ⟨a1, ha1, h1⟩ => ?_
    have hle1 : ∀ b ∈ xs.flatMap A, a1 ≤ b := by
      intro b hb
      rcases List.mem_cons.mp ha1 with rfl | ha1
      · exact hle b (List.mem_append_right _ hb)
      · exact hcross a1 ha1 b hb
    refine (ih (fun y hy => step y (List.mem_cons_of_mem _ hy)) hrest a1 w1 h1 hle1).mono
      fun _ w2 ⟨a2, ha2, h2⟩ => ⟨a2, ?_, h2⟩
    rcases List.mem_cons.mp ha2 with rfl | ha2
    · rcases List.mem_cons.mp ha1 with rfl | ha1
      · exact List.mem_cons_self
      · exact List.mem_cons_of_mem _ (List.mem_append_left _ ha1)
    · exact List.mem_cons_of_mem _ (List.mem_append_right _ ha2)

theorem advances_node (hn : s.node i = n) (hi : isIdentifierNode n = false) (hne : n ≠ .absent)
    (hfun : ∀ as l scope, n ≠ .function as l scope) (hcount : CountsIdentifier s n)
    (hc : ∀ c ∈ n.children, ∀ a v, Visiting s us a v →
      Succeeds (walk namingVisitor d c) v fun _ v' => Visiting s us a v') :
    Advances s us (walk namingVisitor (d + 1) i) (s.cell i).address.toList := by
  intro a w hw hle
  have hle : ∀ b, (s.cell i).address = some b → a ≤ b := fun b hb => hle b (by rw [hb]; simp)
  refine (succeeds_name_same hw hn hi hne hfun hcount hle hc).mono fun _ w' h => ⟨_, ?_, h⟩
  cases (s.cell i).address with
  | none => exact List.mem_cons_self
  | some b => simp

theorem isIdentifierNode_of_isStatement (h : n.isStatement = true) : isIdentifierNode n = false := by
  cases n <;> first | rfl | cases h

theorem advances_content (h : Content s x) (hd : s.cells.size < e) :
    Advances s us (walk namingVisitor e x) (s.cell x).address.toList := by
  obtain ⟨e, rfl⟩ : ∃ e', e = e' + 1 := ⟨e - 1, by omega⟩
  cases h with
  | plain h hs =>
    have hi := h.inner
    refine advances_node rfl (isIdentifierNode_of_isStatement hs) (not_absent_of_isInner hi)
      (not_function_of_isInner hi) (countsIdentifier_of_isInner hi) fun c hm a v hv => ?_
    generalize hsize : s.cells.size = m at h
    cases m with
    | zero => exact h.elim
    | succ m => exact succeeds_name_plain (h.2.2 c hm).2 (h.2.2 c hm).1 (by omega) hv
  | ret h hv =>
    refine advances_node h rfl (by simp) (by simp) (by simp [CountsIdentifier]) fun c hm a v hv' => ?_
    obtain rfl := List.mem_singleton.mp hm
    exact succeeds_name_plain hv.plain hv.quiet (by omega) hv'

theorem ExitParts.quiet (h : ExitParts s n) (hn : n.isExit = true) {c : NodeId} (hc : c ∈ n.children) :
    Quiet s c := by
  cases n with
  | test c' _ _ _ =>
    obtain rfl := List.mem_singleton.mp hc
    exact Has.quiet h
  | iterate vs cs _ _ | count vs cs _ _ =>
    rcases List.mem_pair.mp hc with rfl | rfl
    · exact h.1.quiet
    · exact h.2.quiet
  | jump | stop => cases hc
  | _ => cases hn

theorem advances_exit (hn : s.node i = n) (hexit : n.isExit = true) (h : ExitParts s n)
    (hd : s.cells.size < e) : Advances s us (walk namingVisitor e i) (s.cell i).address.toList := by
  obtain ⟨e, rfl⟩ : ∃ e', e = e' + 1 := ⟨e - 1, by omega⟩
  refine advances_node hn ?_ ?_ ?_ ?_ fun c hm a v hv =>
    succeeds_name_plain (h.plain hexit hm) (h.quiet hexit hm) (by omega) hv
  · cases n <;> first | rfl | cases hexit
  · rintro rfl
    cases hexit
  · rintro as l scope rfl
    cases hexit
  · rintro x cs t o rfl
    exact h.1.fits

/-- The walk goes through a function and comes back with the uses that it had. -/
def PassesThrough (s : Store) (d : Nat) (f : NodeId) : Prop :=
  ∀ w : Work (List Uses), Renames s w.store →
    Succeeds (walk namingVisitor d f) w fun _ w' => Renames s w'.store ∧ w'.own = w.own

theorem advances_closure (h : Closure s x g) (hd : s.cells.size ≤ d + 1) (hg : PassesThrough s d g) :
    Advances s us (walk namingVisitor (d + 2) x) (s.cell x).address.toList := by
  obtain ⟨⟨kind, es, ds, hx, hes, hds, -⟩, -⟩ := h
  refine advances_node hx rfl (by simp) (by simp) (by simp [CountsIdentifier]) fun c hm a v hv => ?_
  rcases List.mem_pair.mp hm with rfl | rfl
  · have haddr : (s.cell c).address = none := by rw [hes]
    have hstep := succeeds_name_same (d := d) hv (congrArg Cell.node hes) rfl (by simp) (by simp)
      (by simp [CountsIdentifier]) (by simp [haddr]) fun c hm a v hv => by
        obtain rfl := List.mem_singleton.mp hm
        exact (hg v hv.renames).mono fun _ v' h' => ⟨h'.1, by rw [h'.2]; exact hv.uses⟩
    rwa [haddr] at hstep
  · exact succeeds_name_plain hds.plain hds.quiet hd hv

variable {H : NodeId → Prop} {f : NodeId}

theorem advances_around {as : List Int} (hcell : s.cell i = ⟨n, none, false⟩)
    (hn : (∃ b, n = .block b) ∨ ∃ bs, n = .list .statements bs)
    (hc : Advances s us (n.children.forM (walk namingVisitor d)) as) :
    Advances s us (walk namingVisitor (d + 1) i) as := by
  intro a w hw hle
  have haddr : (s.cell i).address = none := by rw [hcell]
  have hstep : Succeeds (walk namingVisitor (d + 1) i) w fun _ w' =>
      ∃ a', a' ∈ a :: as ∧ Visiting s us a' w' := by
    refine succeeds_name_node hw (congrArg Cell.node hcell) ?_ ?_ ?_ ?_ (by simp [haddr]) (by simp [haddr])
      fun v hv => ?_
    · rcases hn with ⟨b, rfl⟩ | ⟨bs, rfl⟩ <;> rfl
    · rcases hn with ⟨b, rfl⟩ | ⟨bs, rfl⟩ <;> simp
    · rcases hn with ⟨b, rfl⟩ | ⟨bs, rfl⟩ <;> simp
    · rcases hn with ⟨b, rfl⟩ | ⟨bs, rfl⟩ <;> simp [CountsIdentifier]
    · rw [haddr] at hv
      exact hc a v hv hle
  exact hstep

theorem advances_block {b : Block} (hb : SequencedBlock s H i b)
    (sorted : (addressesOf s i).Pairwise (· ≤ ·)) (hd : s.cells.size ≤ d)
    (hsub : ∀ x ∈ b.contents, ∀ g, Closure s x g → PassesThrough s d g) :
    Advances s us (walk namingVisitor (d + 3) i) (addressesOf s i) := by
  have haddr : addressesOf s i = (b.contents ++ [b.exit]).flatMap fun x => (s.cell x).address.toList := by
    rw [addressesOf, show s.node i = .block b from congrArg Cell.node hb.cell]
    exact List.filterMap_eq_flatMap_toList _ _
  rw [haddr] at sorted ⊢
  refine advances_around hb.cell (.inl ⟨b, rfl⟩) (advances_forM _ (fun x hx => ?_) sorted)
  rcases List.mem_append.mp hx with hx | hx
  · rcases hb.content x hx with hc | ⟨g, hc⟩
    · exact advances_content hc (by omega)
    · exact advances_closure hc (by omega) (hsub x hx g hc)
  · obtain rfl := List.mem_singleton.mp hx
    obtain ⟨n, a, hcell, hexit, hparts⟩ := hb.exit
    exact advances_exit (congrArg Cell.node hcell) hexit hparts (by omega)

/-! ## Functions -/

/-- The walk passes through every function whose addresses do not decrease. -/
theorem Sequenced.passesThrough (h : Sequenced s H f) (hd : 5 * (f.index + 1) + s.cells.size ≤ d) :
    PassesThrough s d f := by
  induction h generalizing d with
  | @tree f as l bs debug count function arguments list home blocks ascending positive below sub ih =>
    intro w hw
    obtain ⟨d, rfl⟩ : ∃ d', d = d' + 5 := ⟨d - 5, by omega⟩
    have hid : isIdentifierNode (s.node f) = false := by
      rw [Store.node, function]
      rfl
    have hnode : ∀ {v}, Renames s v → v.cell f = ⟨.function as l ⟨some debug, count⟩, none, false⟩ :=
      fun hv => (hv.cell f hid).trans function
    have hquiet : ∀ {v}, Renames s v → (v.cell f).address = none ∨ isIdentifierNode (v.node f) = true :=
      fun hv => .inl (by rw [hnode hv])
    have hblocks : ∀ i ∈ bs, Advances s w.own (walk namingVisitor (d + 3) i) (addressesOf s i) := by
      intro i hi
      obtain ⟨b, hb⟩ := blocks i hi
      have hblock := congrArg Cell.node hb.cell
      refine advances_block hb ((List.pairwise_flatMap.mp ascending).1 i hi) (by omega) fun x hx g hc => ?_
      have := below i hi b hblock x hx g hc
      exact ih i hi b hblock x hx g hc (by omega)
    refine (succeeds_require (by rw [Store.node, hnode hw]; rfl) ?_).bind
    have henter : Succeeds (namingVisitor.enter f) w fun _ w' => Visiting s w.own (-1) w' := by
      refine Succeeds.bind (succeeds_arrive_quiet (hquiet hw) ?_)
      refine (succeeds_node ?_).bind
      rw [Store.node, hnode hw]
      exact succeeds_modifyOwn ⟨hw, _, rfl, rfl, rfl⟩
    refine henter.next fun _ w1 h1 => ?_
    refine (succeeds_node ?_).bind
    rw [Store.node, hnode h1.renames]
    have hparts : Succeeds ([as, l].forM (walk namingVisitor (d + 4))) w1 fun _ w' =>
        ∃ a, Visiting s w.own a w' := by
      refine Succeeds.next (succeeds_name_plain arguments.plain arguments.quiet (by omega) h1)
        fun _ w2 h2 => ?_
      have hlist := advances_around list (.inr ⟨bs, rfl⟩) (advances_forM _ hblocks ascending)
      refine (hlist (-1) w2 h2 fun b hb => ?_).next ?_
      · have := positive b hb
        omega
      · rintro _ w3 ⟨a, -, h3⟩
        exact .pure ⟨a, h3⟩
    refine Succeeds.next hparts ?_
    rintro _ w2 ⟨a, h2⟩
    refine (succeeds_node ?_).bind
    rw [Store.node, hnode h2.renames]
    refine (succeeds_nameAt h2 _).next fun _ w3 h3 => ?_
    refine (succeeds_modifyOwn ?_).bind
    obtain ⟨u, hu, -⟩ := h3.uses
    refine succeeds_arrive_quiet ?_ ⟨h3.renames, ?_⟩
    · exact hquiet h3.renames
    · rw [hu]
      rfl

theorem succeeds_within {σ τ α : Type} {init : τ} {p : Pass τ α} {w : Work σ}
    {post : α × τ → Work σ → Prop}
    (h : Succeeds p ⟨w.store, init⟩ fun a v => post (a, v.own) ⟨v.store, w.own⟩) :
    Succeeds (within init p) w post := by
  obtain ⟨a, v, hr, hp⟩ := h
  exact ⟨_, _, hr.within, hp⟩

/-- The variables of a sequenced tree can be named. -/
theorem succeeds_nameLocals {w : Work Unit} (h : Sequenced w.store H f)
    (hf : f.index < w.store.cells.size) :
    Succeeds (nameLocals f) w fun _ w' => Renames w.store w'.store := by
  refine Succeeds.next (succeeds_within (Succeeds.bind (succeeds_get ?_)))
    fun _ w' hw => .pure (show Renames w.store w'.store from hw)
  refine (h.passesThrough ?_ _ .refl).mono fun _ v hv => hv.1
  dsimp only [Store.depth]
  omega

end LuaLift.Proofs
