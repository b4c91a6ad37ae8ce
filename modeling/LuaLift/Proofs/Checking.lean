import LuaLift.Proofs.Functions

/-! # Lifted functions are valid

Every node of a lifted function has the parts that it asks for, and no chain of parts is longer
than the check follows. -/
namespace LuaLift.Proofs
open Bytecode Tree Pass Lift

variable {s : Store} {d k lo : Nat} {i f g : NodeId} {F : Frame}

/-- The check of a node succeeds at depth `d` wherever the node is allowed. -/
def Checks (s : Store) (d : Nat) (i : NodeId) : Prop :=
  ∀ rule : Option PartRule, (∀ r, rule = some r → r.allows i (s.node i) = true) →
    checkPart s true d rule i = .ok ()

theorem forM_ok {xs : List NodeId} {check : NodeId → Except Fault Unit}
    (h : ∀ x ∈ xs, check x = .ok ()) : xs.forM check = .ok () := by
  induction xs with
  | nil => rfl
  | cons x xs ih =>
    show (check x >>= fun _ => xs.forM check) = _
    rw [h x List.mem_cons_self]
    exact ih fun y hy => h y (List.mem_cons_of_mem _ hy)

theorem checkPart_succ {warped : Bool} {rule : Option PartRule} {r : PartRule}
    (hrule : ∀ r, rule = some r → r.allows i (s.node i) = true) (hn : s.node i ≠ .absent)
    (hr : partRule s warped (s.node i) = .ok r)
    (hc : ∀ c ∈ (s.node i).children, checkPart s warped d (some r) c = .ok ()) :
    checkPart s warped (d + 1) rule i = .ok () := by
  have hrest : (do
      demand (s.node i != Node.absent) "a part of a node is missing"
      let r ← partRule s warped (s.node i)
      (s.node i).children.forM (checkPart s warped d (some r))) = .ok () := by
    rw [hr, demand, if_pos (bne_iff_ne.mpr hn)]
    exact forM_ok hc
  unfold checkPart
  cases rule with
  | none => exact hrest
  | some r' =>
    dsimp only
    rw [demand, if_pos (hrule r' rfl)]
    exact hrest

theorem checks_succ (hn : s.node i ≠ .absent) (hfit : PartsFit s (s.node i))
    (hc : ∀ c ∈ (s.node i).children, Checks s d c) : Checks s (d + 1) i := by
  intro rule hrule
  obtain ⟨r, hr, hallows⟩ := hfit
  exact checkPart_succ hrule hn hr fun c hm =>
    hc c hm (some r) fun r' hr' => Option.some.inj hr' ▸ hallows c hm

theorem Plain.checks {e : Nat} (h : Plain s e i) (hd : e ≤ d) : Checks s d i := by
  induction e generalizing i d with
  | zero => exact h.elim
  | succ e ih =>
    obtain ⟨hi, hfit, hc⟩ := h
    obtain ⟨d, rfl⟩ : ∃ d', d = d' + 1 := ⟨d - 1, by omega⟩
    refine checks_succ (fun hn => ?_) hfit fun c hm => ih (hc c hm).2 (by omega)
    rw [hn] at hi
    cases hi

theorem Has.checks {fits : Node → Bool} (h : Has s fits i) (hd : s.cells.size ≤ d) : Checks s d i :=
  h.plain.checks hd

/-! ## Statements -/

theorem Content.checks (h : Content s i) (hd : s.cells.size ≤ d) : Checks s (d + 1) i := by
  cases h with
  | plain h _ => exact h.checks (by omega)
  | ret h hv =>
    refine checks_succ (by rw [h]; simp) ?_ ?_ <;> rw [h]
    · refine .ofGeneral (f := Node.isList .expressions) rfl ?_
      simpa [Node.children] using hv.fits
    · simpa [Node.children] using hv.checks hd

theorem Closure.checks (h : Closure s i g) (hd : s.cells.size ≤ d + 1) (hg : Checks s d g) :
    Checks s (d + 2) i := by
  obtain ⟨⟨kind, es, ds, hi, hes, hds, hfit⟩, as, ss, scope, hcell⟩ := h
  have hes' : s.node es = .list .expressions [g] := congrArg Cell.node hes
  have hg' : s.node g = .function as ss scope := congrArg Cell.node hcell
  refine checks_succ (by rw [hi]; simp) (hi ▸ hfit) fun c hm => ?_
  rw [hi] at hm
  rcases List.mem_pair.mp hm with rfl | rfl
  · refine checks_succ (by rw [hes']; simp) ?_ ?_ <;> rw [hes']
    · refine .ofGeneral (f := Node.isExpression) rfl ?_
      simp [Node.children, hg', Node.isExpression]
    · simpa [Node.children] using hg
  · exact hds.checks hd

theorem Content.isStatement (h : Content s i) : (s.node i).isStatement = true := by
  cases h with
  | plain _ hs => exact hs
  | ret h _ => rw [h]; rfl

theorem Closure.isStatement (h : Closure s i g) : (s.node i).isStatement = true := by
  obtain ⟨⟨_, _, _, hi, -⟩, -⟩ := h
  rw [hi]
  rfl

/-! ## Exits -/

theorem Bodies.starts (h : Bodies s lo F) {a : Int} (hpos : 0 < lo)
    (hs : BlockStarts F.ends F.blocks a i) :
    i ≠ .absent ∧ ∃ k < F.ends.length, firstOf F.ends k = a ∧ blockIndex? (s.node i) = some (k : Int) := by
  obtain ⟨k, hk, hfirst⟩ := hs
  have hin := h.blockInside i (List.mem_of_getElem? hk)
  obtain ⟨e, hcell⟩ := h.block k i hk
  refine ⟨fun hi => ?_, k, h.length ▸ (List.getElem?_eq_some_iff.mp hk).1, hfirst, ?_⟩
  · rw [hi] at hin
    simp only [NodeId.absent] at hin
    omega
  · rw [Store.node, hcell]
    rfl

theorem Bodies.wayOut_after (h : Bodies s lo F) {k j m : Nat} {d o : Int}
    (hway : WayBehind F.p.instructions (lastOf F.ends k) (.iterate d o))
    (hj : j < F.ends.length) (hjd : firstOf F.ends j = d) (hmo : firstOf F.ends m = o) : j < m := by
  cases hway with
  | iterate hend =>
    obtain ⟨o, ho, hend⟩ := (Option.any_eq_true ..).mp hend
    obtain rfl := eq_iterl hend (h.wellFormed.compiled.at ho)
    obtain ⟨d, hd, hback⟩ := (Option.any_eq_true ..).mp (h.wellFormed.back.at ho (.inr rfl))
    have hback : d ≤ lastOf F.ends k := by simpa using hback
    rw [hd, Option.getD_some] at hjd
    rcases Nat.lt_or_ge j m with hlt | hge
    · exact hlt
    · rcases Nat.lt_or_eq_of_le hge with hlt | rfl
      · have := h.blockEnds.firstOf_lt hlt (by omega)
        omega
      · omega

/-- What an exit asks of its parts, it has. -/
theorem Bodies.partsFit_exit (h : Bodies s lo F) (hpos : 0 < lo) {n : Node}
    (hleads : Leads (BlockStarts F.ends F.blocks) (wayFrom F.p.instructions (lastOf F.ends k)) n)
    (hparts : ExitParts s n) : PartsFit s n := by
  have hbehind := wayBehind_wayFrom F.p.instructions (lastOf F.ends k)
  generalize wayFrom F.p.instructions (lastOf F.ends k) = way at hleads hbehind
  cases hleads with
  | flow ha | jump ha =>
    refine ⟨{}, ?_, by simp [Node.children]⟩
    simp [partRule, demand, (h.starts hpos ha).1, bind, Except.bind, pure, Except.pure]
  | @test _ _ _ _ c _ ha hb =>
    refine ⟨⟨[(c, Node.isExpression)], none⟩, ?_, fun x hx => ?_⟩
    · simp [partRule, demand, (h.starts hpos ha).1, (h.starts hpos hb).1, bind, Except.bind, pure,
        Except.pure]
    · obtain rfl : x = c := by simpa [Node.children] using hx
      exact allows_of (by simpa using hparts.fits) (.inl ⟨_, List.mem_cons_self, rfl⟩)
  | @iterate _ _ t o vs cs ha hb =>
    obtain ⟨ht, j, hj, hjd, hji⟩ := h.starts hpos ha
    obtain ⟨ho, m, hm, hmo, hmi⟩ := h.starts hpos hb
    have hlt : (j : Int) < m := by
      have := h.wayOut_after hbehind hj hjd hmo
      omega
    have hr : partRule s true (.iterate vs cs t o) =
        .ok ⟨[(vs, Node.isList .targets), (cs, Node.isList .expressions)], some isBlockNode⟩ := by
      simp [partRule, demand, ht, ho, hji, hmi, hlt, bind, Except.bind, pure, Except.pure]
    exact .ofPair hr (by simp [Node.children]) hparts.1.fits hparts.2.fits
  | @count _ _ t o x cs ha hb =>
    have hr : partRule s true (.count x cs t o) =
        .ok ⟨[(x, isIdentifierNode), (cs, Node.isList .expressions)], some isBlockNode⟩ := by
      simp [partRule, demand, (h.starts hpos ha).1, (h.starts hpos hb).1, bind, Except.bind, pure,
        Except.pure]
    exact .ofPair hr (by simp [Node.children]) hparts.1.fits hparts.2.fits

theorem ExitParts.checks {at_ : Int → NodeId → Prop} {way : Way} {n : Node} (hleads : Leads at_ way n)
    (h : ExitParts s n) (hd : s.cells.size ≤ d) : ∀ c ∈ n.children, Checks s d c := by
  cases hleads with
  | flow _ | jump _ => simp [Node.children]
  | test _ _ => simpa [Node.children] using Has.checks h hd
  | iterate _ _ | count _ _ => simpa [Node.children] using ⟨h.1.checks hd, h.2.checks hd⟩

theorem Bodies.exit_node (h : Bodies s lo F) (hk : k < F.ends.length) :
    (s.node (F.exit k)).isExit = true := by
  by_cases hm : k + 1 = F.ends.length
  · have hfinal := congrArg Cell.node h.final
    rw [← hm, Nat.add_sub_cancel] at hfinal
    rw [Store.node, hfinal]
    rfl
  · obtain ⟨n, hcell, hleads, -⟩ := h.shown k (by omega)
    rw [Store.node, hcell]
    exact hleads.isExit

theorem Bodies.checks_exit (h : Bodies s lo F) (hpos : 0 < lo) (hk : k < F.ends.length)
    (hd : s.cells.size ≤ d) : Checks s (d + 1) (F.exit k) := by
  by_cases hm : k + 1 = F.ends.length
  · have hfinal := congrArg Cell.node h.final
    rw [← hm, Nat.add_sub_cancel] at hfinal
    have hnode : s.node (F.exit k) = .stop .absent := hfinal
    refine checks_succ ?_ ?_ ?_ <;> rw [hnode]
    · simp
    · exact ⟨{}, rfl, by simp [Node.children]⟩
    · simp [Node.children]
  · obtain ⟨n, hcell, hleads, hparts⟩ := h.shown k (by omega)
    have hnode : s.node (F.exit k) = n := congrArg Cell.node hcell
    refine checks_succ ?_ ?_ ?_ <;> rw [hnode]
    · exact hleads.outer.1
    · exact h.partsFit_exit hpos hleads hparts
    · exact hparts.checks hleads hd

/-! ## Blocks and functions -/

theorem partsFit_block {b : Block} (hi : 0 ≤ b.index) (h0 : 0 ≤ b.first) (hle : b.first ≤ b.last)
    (hc : ∀ c ∈ b.contents, (s.node c).isStatement = true)
    (he : (s.node b.exit).isExit = true) : PartsFit s (.block b) := by
  refine ⟨⟨[(b.exit, Node.isExit)], some Node.isStatement⟩, ?_, fun c hm => ?_⟩
  · simp [partRule, demand, hi, h0, hle, bind, Except.bind, pure, Except.pure]
  · refine allows_of (by simpa using fun hx => hx ▸ he) ?_
    rcases List.mem_append.mp hm with hm | hm
    · exact .inr ⟨_, rfl, hc c hm⟩
    · exact .inl ⟨_, List.mem_cons_self, (List.mem_singleton.mp hm).symm⟩

theorem Bodies.checks_block (h : Bodies s lo F) (hpos : 0 < lo) (hk : F.blocks[k]? = some i)
    (hd : s.cells.size ≤ d)
    (hlines : ∀ {a x}, F.line a = some x → Checks s (d + 1) x) : Checks s (d + 2) i := by
  obtain ⟨e, hcell⟩ := h.block k i hk
  have hlt : k < F.ends.length := h.length ▸ (List.getElem?_eq_some_iff.mp hk).1
  have hnode : s.node i = .block (F.block k e) := congrArg Cell.node hcell
  have hmem : ∀ c ∈ (F.block k e).contents, ∃ a, F.line a = some c := fun c hc => by
    obtain ⟨a, -, ha⟩ := List.mem_filterMap.mp hc
    exact ⟨a, ha⟩
  refine checks_succ ?_ ?_ ?_ <;> rw [hnode]
  · simp
  · have hfirst := h.blockEnds.firstOf_pos (k := k) (by omega)
    refine partsFit_block (Int.natCast_nonneg k) (by show 0 ≤ firstOf F.ends k; omega)
      (h.blockEnds.firstOf_le_lastOf hlt) (fun c hc => ?_) (h.exit_node hlt)
    obtain ⟨a, ha⟩ := hmem c hc
    rcases h.lines.content ha with hc | ⟨g, hc⟩
    · exact hc.isStatement
    · exact hc.isStatement
  · intro c hc
    rcases List.mem_append.mp hc with hc | hc
    · obtain ⟨a, ha⟩ := hmem c hc
      exact hlines ha
    · rw [List.mem_singleton.mp hc]
      exact h.checks_exit hpos hlt hd

theorem Lifted.checks (h : Lifted s lo f) (hpos : 0 < lo)
    (hd : 5 * (f.index + 1 - lo) + s.cells.size ≤ d) : Checks s d f := by
  induction h generalizing d with
  | @tree lo f F start laid apart sub ih =>
    have hmid := laid.mid_pos
    have habove := laid.above
    have hbelow := laid.below
    obtain ⟨d, rfl⟩ : ∃ e, d = e + 5 := ⟨d - 5, by omega⟩
    have hlines : ∀ {a x}, F.line a = some x → Checks s (d + 2) x := by
      intro a x ha
      rcases laid.lines.content ha with hc | ⟨g, hc⟩
      · exact hc.checks (by omega)
      · have hab := apart ha hc
        have := hab.above
        have := hab.lt
        have := laid.lineBelow ha
        exact hc.checks (by omega) (ih ha hc (by omega) (by omega))
    obtain ⟨as, hf, has⟩ := laid.function
    have hf' : s.node f = .function as F.list _ := congrArg Cell.node hf
    have hl' : s.node F.list = .list .statements F.blocks := congrArg Cell.node laid.list
    have hblock : ∀ c ∈ F.blocks, isBlockNode (s.node c) = true := by
      intro c hc
      obtain ⟨k, hk⟩ := List.mem_iff_getElem?.mp hc
      obtain ⟨e, hcell⟩ := laid.block k c hk
      rw [Store.node, hcell]
      rfl
    refine checks_succ ?_ ?_ ?_ <;> rw [hf']
    · simp
    · exact .ofPair rfl (by simp [Node.children]) has.fits (by rw [hl']; rfl)
    · intro c hc
      rcases List.mem_pair.mp hc with rfl | rfl
      · exact has.checks (by omega)
      · refine checks_succ ?_ ?_ ?_ <;> rw [hl']
        · simp
        · exact .ofGeneral (f := isBlockNode) rfl hblock
        · intro b hb
          obtain ⟨k, hk⟩ := List.mem_iff_getElem?.mp hb
          exact laid.checks_block hpos hk (by omega) hlines

/-- The check of a lifted function succeeds. -/
theorem Lifted.validate (h : Lifted s lo f) (hpos : 0 < lo) (hf : f.index < s.cells.size) :
    s.validate true f = .ok () :=
  h.checks hpos (by rw [Store.depth]; omega) none (by simp)

end LuaLift.Proofs
