import LuaLift.Proofs.InStep

/-! # Writing two trees that are alike

Each kind of node is written in step with its counterpart, if the parts are; so whole trees are
written with the same commands (`freshInStep_write`). -/
namespace LuaLift.Proofs
open Tree Pass Lua

variable {s s' : Store} {k : Nat} {i j : NodeId} {α β : Type} {ps : Pairs}
  {kind : AssignmentKind} {is js fs xs : List NodeId} {n : Node}
  {a a' b b' c c' e e' f f' r r' t t' as as' ds ds' es es' ss ss' key key' root : NodeId}
  {x y y' : Write Unit} {Q : α → β → Prop} {inner inner' : NodeId → Write Unit}

/-- A part and its counterpart, which are written in step or left out in step. -/
structure Paired (s s' : Store) (ps : Pairs) (k : Nat) (inner inner' : NodeId → Write Unit)
    (i j : NodeId) : Prop where
  twin : Twin s s' k i j
  part : Both s s' ps (Lua.part inner i) (Lua.part inner' j)
  leaveOut : Both s s' ps (Lua.leaveOut i) (Lua.leaveOut j)

theorem Twin.paired (h : Twin s s' k i j)
    (hinner : ∀ a b, Twin s s' k a b → FreshInStep s s' (inner a) (inner' b)) (halign : Aligned ps)
    (hmem : (i, j) ∈ ps) : Paired s s' ps k inner inner' i j :=
  ⟨h, both_part h.mirror.present h.mirror.present' halign hmem (hinner i j h), both_leaveOut halign hmem⟩

/-! ## Writers of nodes -/

theorem both_parenthesized (wanted : Bool) (h : Both s s' ps x y) :
    Both s s' ps (parenthesized wanted x) (parenthesized wanted y) := by
  cases wanted with
  | true => exact (both_put _).seq <| h.seq <| both_put _
  | false => exact both_pure.seq <| h.seq both_pure

theorem both_operand {wanted : Node → Bool} (h : Paired s s' ps k inner inner' i j)
    (hw : wanted (s.node i) = wanted (s'.node j)) :
    Both s s' ps (do parenthesized (wanted (← node i)) (part inner i))
      (do parenthesized (wanted (← node j)) (part inner' j)) := by
  refine inStep_atNode ?_
  rw [hw]
  exact both_parenthesized _ h.part

theorem both_writeBinary {op : BinaryOp} (ha : Paired s s' ps k inner inner' a a')
    (hb : Paired s s' ps k inner inner' b b') :
    Both s s' ps (writeBinary inner op a b) (writeBinary inner' op a' b') := by
  refine inStep_atNode ?_
  dsimp only
  rw [ha.twin.operatorCode?]
  refine (both_parenthesized _ ha.part).seq ?_
  cases binarySign op with
  | some t => exact (both_put t).seq <| both_operand hb (by rw [hb.twin.operatorCode?])
  | none => exact inStep_throw _

theorem both_writeUnary {op : UnaryOp} (ha : Paired s s' ps k inner inner' a a') :
    Both s s' ps (writeUnary inner op a) (writeUnary inner' op a') := by
  unfold writeUnary
  dsimp only
  split
  · exact both_operand ha (by rw [ha.twin.operatorCode?])
  · exact (both_put _).seq <| both_operand ha (by rw [ha.twin.operatorCode?])

theorem both_separated (h : Both s s' ps x y) (hparts : List.Forall₂ (Paired s s' ps k inner inner') is js) :
    Both s s' ps (separated inner x is) (separated inner' y js) := by
  induction hparts with
  | nil => exact both_pure
  | cons hij htail ih =>
    cases htail with
    | nil => exact hij.part
    | cons _ _ => exact hij.part.seq <| h.seq ih

theorem both_forM (hparts : List.Forall₂ (Paired s s' ps k inner inner') is js) :
    Both s s' ps (is.forM (part inner)) (js.forM (part inner')) := by
  induction hparts with
  | nil => exact both_pure
  | cons hij _ ih => exact hij.part.seq ih

theorem both_writeRecords (hparts : List.Forall₂ (Paired s s' ps k inner inner') is js) :
    Both s s' ps (writeRecords inner is) (writeRecords inner' js) := by
  refine (both_separated ((both_put _).seq both_endLine) hparts).seq ?_
  cases hparts with
  | nil => exact both_pure
  | cons _ _ => exact both_endLine

theorem both_writeStatements (hparts : List.Forall₂ (Paired s s' ps k inner inner') is js) :
    Both s s' ps (writeStatements inner is) (writeStatements inner' js) := by
  have hblock : ∀ (c : Command) {x y : Write Unit}, Both s s' ps x y → Both s s' ps
      (do if (← own).frames.length > 1 then emit c; x else x)
      (do if (← own).frames.length > 1 then emit c; y else y) := by
    intro c x y h
    refine inStep_own.bind fun d d' hd => ?_
    rw [hd.length_eq]
    split
    · exact (both_emit c).seq h
    · exact h
  refine hblock .openBlock ?_
  refine (both_modifyFrames fun _ _ h => .cons .default h).seq <| (both_forM hparts).seq ?_
  exact (both_modifyFrames fun _ _ h => List.forall₂_drop 1 h).seq <| hblock .closeBlock both_pure

theorem both_writeTableRecord (ha : Paired s s' ps k inner inner' a a')
    (hb : Paired s s' ps k inner inner' b b') :
    Both s s' ps (writeTableRecord inner a b) (writeTableRecord inner' a' b') := by
  obtain ⟨fs, xs, hn⟩ := ha.twin.rebuild
  refine inStep_atNode ?_
  rw [hn, isNameKey_rebuild, keyText_rebuild]
  refine inStep_atNameKey fun bare => ?_
  cases bare with
  | true => exact (both_put _).seq <| ha.leaveOut.seq <| (both_put _).seq hb.part
  | false => exact (both_put _).seq <| ha.part.seq <| (both_put _).seq hb.part

theorem Twin.constructor (h : Twin s s' k i j) :
    (∃ a r a' r', s.node i = .table a r ∧ s'.node j = .table a' r') ∨
      (∀ a r, s.node i ≠ .table a r) ∧ ∀ a r, s'.node j ≠ .table a r := by
  obtain ⟨fs, xs, hf, -, hn⟩ := h.mirror.links
  cases hi : s.node i with
  | table a r =>
    rw [hi] at hf hn
    obtain ⟨a', r', rfl, -, -⟩ := forall₂_two hf
    exact .inl ⟨a, r, a', r', rfl, hn⟩
  | _ =>
    refine .inr ⟨by simp, fun a r hj => ?_⟩
    have hkind := h.ctorIdx
    rw [hi, hj] at hkind
    cases hkind

theorem inStep_isGlobal (table key table' key' : NodeId) : InStep s s' ps
    (fun a b => a = isBuiltin (s.node table) ∧ b = isBuiltin (s'.node table'))
    (isGlobal (.element table key)) (isGlobal (.element table' key')) :=
  inStep_atNode (inStep_pure ⟨rfl, rfl⟩)

theorem Twin.isBuiltin (h : Twin s s' k i j) : Lua.isBuiltin (s'.node j) = Lua.isBuiltin (s.node i) := by
  obtain ⟨fs, xs, hn⟩ := h.rebuild
  rw [hn, isBuiltin_rebuild]

theorem both_writeElement (ha : Paired s s' ps k inner inner' a a')
    (hb : Paired s s' ps k inner inner' b b') :
    Both s s' ps (writeElement inner (.element a b) a b) (writeElement inner' (.element a' b') a' b') := by
  obtain ⟨fs, xs, hn⟩ := hb.twin.rebuild
  refine inStep_atNode ?_
  rw [hn, isNameKey_rebuild, keyText_rebuild]
  refine inStep_atNameKey fun bare => (inStep_isGlobal a b a' b').bind ?_
  rintro _ _ ⟨rfl, rfl⟩
  rw [ha.twin.isBuiltin]
  have hindex : ∀ wanted, Both s s' ps
      (do parenthesized wanted (part inner a); put "["; part inner b; put "]")
      (do parenthesized wanted (part inner' a'); put "["; part inner' b'; put "]") := fun wanted =>
    (both_parenthesized wanted ha.part).seq <| (both_put _).seq <| hb.part.seq <| both_put _
  cases isBuiltin (s.node a) with
  | true => exact (both_require _ _).seq <| ha.leaveOut.seq <| hb.leaveOut.seq <| both_put _
  | false =>
    refine inStep_atNode ?_
    obtain ⟨_, _, _, _, hi, hj⟩ | ⟨hi, hj⟩ := ha.twin.constructor
    · rw [hi, hj]
      exact hindex true
    · split
      · rename_i c r heq
        exact absurd heq (hi c r)
      · cases bare with
        | true => exact ha.part.seq <| (both_put _).seq <| (both_put _).seq hb.leaveOut
        | false => exact hindex false

theorem Twin.inStep_items (h : Twin s s' k i j) : InStep s s' ps (fun is js =>
      is = (s.node i).items ∧ js = (s'.node j).items ∧ List.Forall₂ (Twin s s' (k - 1)) is js)
      (items i) (items j) := by
  obtain ⟨fs, xs, -, hx, hn⟩ := h.mirror.links
  have hstructured := h.mirror.structured
  refine inStep_atNode ?_
  cases hi : s.node i with
  | list kind is =>
    rw [hi] at hx hn
    rw [hn]
    exact inStep_pure ⟨rfl, rfl, hx⟩
  | block b => simp [hi, isStructured] at hstructured
  | _ =>
    have hkind := h.ctorIdx
    rw [hi] at hkind
    dsimp only
    split
    case h_3 => exact inStep_throw _
    all_goals
      rename_i hj
      rw [hj] at hkind
      cases hkind

theorem inStep_noMethod (hf : Twin s s' k f f') (has : Twin s s' k as as')
    (hm : isMethodCall s (.call f as) = false) (hm' : isMethodCall s' (.call f' as') = false)
    {g : Option (NodeId × Node) → Write α} {g' : Option (NodeId × Node) → Write β}
    (h : InStep s s' ps Q (g none) (g' none)) :
    InStep s s' ps Q (do let args ← items as; let m ← method? (← node f) args; g m)
      (do let args ← items as'; let m ← method? (← node f') args; g' m) := by
  obtain ⟨fs, xs, hfields, -, hn⟩ := hf.mirror.links
  refine has.inStep_items.bind fun is js hitems => inStep_atNode ?_
  obtain ⟨his, hjs, hitems⟩ := hitems
  have hnone : InStep s s' ps (fun a b => a = none ∧ b = none) (method? (s.node f) is)
      (method? (s'.node f') js) := by
    cases hnode : s.node f with
    | element t key =>
      rw [hnode] at hfields hn
      obtain ⟨t', key', rfl, -, hkey⟩ := forall₂_two hfields
      obtain ⟨gs, ys, hkeys⟩ := hkey.rebuild
      rw [hn]
      cases hitems with
      | nil => exact inStep_pure ⟨rfl, rfl⟩
      | @cons first first' rest rest' _ _ =>
        have hne : t ≠ first := by simpa [isMethodCall, hnode, ← his] using hm
        have hne' : t' ≠ first' := by simpa [isMethodCall, hn, Node.rebuild, ← hjs] using hm'
        refine inStep_atNode ?_
        rw [hkeys, isNameKey_rebuild]
        refine inStep_atNameKey fun bare => ?_
        cases bare with
        | true => exact inStep_pure ⟨by simp [hne], by simp [hne']⟩
        | false => exact inStep_pure ⟨rfl, rfl⟩
    | _ =>
      have hkind := hf.ctorIdx
      rw [hnode] at hkind
      unfold method?
      dsimp only
      split
      · rename_i hj
        rw [hj] at hkind
        cases hkind
      · exact inStep_pure ⟨rfl, rfl⟩
  refine hnone.bind ?_
  rintro _ _ ⟨rfl, rfl⟩
  exact h

/-- A call that is no method call is written with all its arguments. -/
theorem both_writeCall (hf : Paired s s' ps k inner inner' f f') (has : Paired s s' ps k inner inner' as as')
    (hm : isMethodCall s (.call f as) = false) (hm' : isMethodCall s' (.call f' as') = false) :
    Both s s' ps (writeCall inner f as) (writeCall inner' f' as') := by
  have hcall : ∀ {x y : Write Unit}, Both s s' ps x y → Both s s' ps
      (do part inner f; put "("; part inner as; put ")"; x)
      (do part inner' f'; put "("; part inner' as'; put ")"; y) := fun h =>
    hf.part.seq <| (both_put _).seq <| has.part.seq <| (both_put _).seq h
  refine inStep_frame.bind fun g g' hg => ?_
  rw [hg.current]
  cases g'.current == none with
  | true => exact (both_startStatement _).seq <|
    inStep_noMethod hf.twin has.twin hm hm' <| hcall (both_endStatement _)
  | false => exact inStep_noMethod hf.twin has.twin hm hm' <| hcall both_pure

theorem both_writeIf (hc : Paired s s' ps k inner inner' c c') (ht : Paired s s' ps k inner inner' t t')
    (hxs : List.Forall₂ (Paired s s' ps k inner inner') is js) (he : Paired s s' ps k inner inner' e e') :
    Both s s' ps (writeIf inner c t is e) (writeIf inner' c' t' js e') := by
  refine (both_startStatement _).seq <| (both_put _).seq <| hc.part.seq <| (both_put _).seq ?_
  refine both_endLine.seq <| ht.part.seq <| (both_forM hxs).seq <| he.twin.inStep_items.bind
    fun xs ys hitems => ?_
  have hend : Both s s' ps (do put "end"; endStatement .ifElse) (do put "end"; endStatement .ifElse) :=
    (both_put _).seq <| both_endStatement _
  cases hitems.2.2 with
  | nil => exact he.leaveOut.seq hend
  | cons _ _ => exact (both_put _).seq <| both_endLine.seq <| he.part.seq hend

theorem both_writeElseIf (hc : Paired s s' ps k inner inner' c c') (ht : Paired s s' ps k inner inner' t t') :
    Both s s' ps (writeElseIf inner c t) (writeElseIf inner' c' t') :=
  (both_put _).seq <| hc.part.seq <| (both_put _).seq <| both_endLine.seq ht.part

theorem both_writeReturn (ha : Paired s s' ps k inner inner' a a') :
    Both s s' ps (writeReturn inner a) (writeReturn inner' a') :=
  (both_startStatement _).seq <| (both_put _).seq <| ha.part.seq <| both_endStatement _

theorem both_writeWhile (hc : Paired s s' ps k inner inner' c c') (ht : Paired s s' ps k inner inner' t t') :
    Both s s' ps (writeWhile inner c t) (writeWhile inner' c' t') := by
  refine (both_startStatement _).seq <| (both_put _).seq <| hc.part.seq <| (both_put _).seq ?_
  exact both_endLine.seq <| ht.part.seq <| (both_put _).seq <| both_endStatement _

theorem both_writeRepeat (hc : Paired s s' ps k inner inner' c c') (ht : Paired s s' ps k inner inner' t t') :
    Both s s' ps (writeRepeat inner c t) (writeRepeat inner' c' t') := by
  refine (both_startStatement _).seq <| (both_put _).seq <| both_endLine.seq <| ht.part.seq ?_
  exact (both_put _).seq <| hc.part.seq <| both_endStatement _

theorem both_writeFor {kind : StatementKind} {sign : String} (ha : Paired s s' ps k inner inner' a a')
    (he : Paired s s' ps k inner inner' e e') (ht : Paired s s' ps k inner inner' t t') :
    Both s s' ps (writeFor inner kind a sign e t) (writeFor inner' kind a' sign e' t') := by
  refine (both_startStatement _).seq <| (both_put _).seq <| ha.part.seq <| (both_put _).seq ?_
  refine he.part.seq <| (both_put _).seq <| both_endLine.seq <| ht.part.seq ?_
  exact (both_put _).seq <| both_endStatement _

theorem both_writeIdentifier (x : Identifier) :
    Both s s' ps (writeIdentifier x) (writeIdentifier x) := by
  unfold writeIdentifier
  split <;> exact both_put _

theorem both_writeConstant (kind : ConstantKind) (value : Literal) :
    Both s s' ps (writeConstant kind value) (writeConstant kind value) := by
  unfold writeConstant
  split
  · exact both_put _
  · exact inStep_throw _
  · exact both_put _

/-! ## Constructors -/

theorem Twin.inStep_recordValue (h : Twin s s' k i j) :
    InStep s s' ps (Twin s s' (k - 1)) (recordValue i) (recordValue j) := by
  obtain ⟨fs, xs, hf, -, hn⟩ := h.mirror.links
  refine inStep_atNode ?_
  cases hi : s.node i with
  | arrayRecord v =>
    rw [hi] at hf hn
    obtain ⟨v', rfl, hv⟩ := forall₂_one hf
    rw [hn]
    exact inStep_pure hv
  | tableRecord key v =>
    rw [hi] at hf hn
    obtain ⟨key', v', rfl, -, hv⟩ := forall₂_two hf
    rw [hn]
    exact inStep_pure hv
  | _ =>
    have hkind := h.ctorIdx
    rw [hi] at hkind
    dsimp only
    split
    case h_3 => exact inStep_throw _
    all_goals
      rename_i hj
      rw [hj] at hkind
      cases hkind

theorem Twin.nil_iff (h : Twin s s' k i j) : s.node i = .primitive .nil ↔ s'.node j = .primitive .nil := by
  obtain ⟨fs, xs, hn⟩ := h.rebuild
  rw [hn, rebuild_eq_nil]

theorem both_matchNil {n' : Node} {x' : Write Unit} :
    (n = .primitive .nil ↔ n' = .primitive .nil) → Both s s' ps x x' → Both s s' ps y y' →
    Both s s' ps (match n with | .primitive .nil => x | _ => y)
      (match n' with | .primitive .nil => x' | _ => y') := by
  intro h hx hy
  split
  · rw [h.mp rfl]
    exact hx
  · rename_i hn
    split
    · exact absurd (h.mpr rfl) hn
    · exact hy

theorem aligned_singleton : Aligned [(i, j)] := by
  intro p hp q hq
  simp [List.mem_singleton.mp hp, List.mem_singleton.mp hq]

section
variable (hinner : ∀ a b, Twin s s' k a b → FreshInStep s s' (inner a) (inner' b))
include hinner

theorem paired_zip (htwins : List.Forall₂ (Twin s s' k) is js) (halign : Aligned (is.zip js)) :
    List.Forall₂ (Paired s s' (is.zip js) k inner inner') is js := by
  refine List.forall₂_iff_zip.mpr ⟨htwins.length_eq, fun hmem => ?_⟩
  exact ((List.forall₂_iff_zip.mp htwins).2 hmem).paired hinner halign hmem

/-- The first array item has a key, and what is behind it shares a record of what is written. -/
theorem both_zerothRecord (hfirst : Twin s s' k a a')
    (hrest : List.Forall₂ (Paired s s' (is.zip js) k inner inner') is js) :
    Both s s' ps
      (fresh do
        put "[0] = "
        fresh (part inner a)
        unless is.isEmpty do
          put ","
          endLine
        writeRecords inner is
        if is.isEmpty then endLine)
      (fresh do
        put "[0] = "
        fresh (part inner' a')
        unless js.isEmpty do
          put ","
          endLine
        writeRecords inner' js
        if js.isEmpty then endLine) := by
  have hzeroth := hfirst.paired hinner aligned_singleton (List.mem_singleton.mpr rfl)
  refine both_freshOf (is.zip js) ?_
  have hrecords := both_writeRecords hrest
  refine (both_put _).seq <| (both_freshOf _ hzeroth.part).seq ?_
  cases hrest with
  | nil => exact hrecords.seq both_endLine
  | cons _ _ => exact (both_put _).seq <| both_endLine.seq <| hrecords.seq both_pure

theorem both_writeTable (ha : Paired s s' ps k inner inner' a a') (hr : Paired s s' ps k inner inner' r r')
    (hrecords : Aligned ((tableParts s a r).zip (tableParts s' a' r'))) :
    Both s s' ps (writeTable inner a r) (writeTable inner' a' r') := by
  have hend : Both s s' ps (do leaveOut a; leaveOut r; put "\x7d")
      (do leaveOut a'; leaveOut r'; put "\x7d") :=
    ha.leaveOut.seq <| hr.leaveOut.seq <| both_put _
  have hclose : Both s s' ps (do emit .closeBlock; leaveOut a; leaveOut r; put "\x7d")
      (do emit .closeBlock; leaveOut a'; leaveOut r'; put "\x7d") := (both_emit _).seq hend
  refine (both_put _).seq <| ha.twin.inStep_items.bind ?_
  rintro _ _ ⟨rfl, rfl, htwins⟩
  refine hr.twin.inStep_items.bind ?_
  rintro _ _ ⟨rfl, rfl, htwins'⟩
  have hrest := htwins'.imp fun _ _ h => h.mono (Nat.sub_le k 1)
  unfold tableParts at hrecords
  revert htwins hrecords
  cases (s.node a).items with
  | nil =>
    intro hrecords htwins
    rw [List.forall₂_nil_left_iff.mp htwins] at hrecords ⊢
    have hempty : (s'.node r').items.isEmpty = (s.node r).items.isEmpty := by
      rw [Bool.eq_iff_iff, List.isEmpty_iff_length_eq_zero, List.isEmpty_iff_length_eq_zero, hrest.length_eq]
    rw [hempty]
    split
    · exact hend
    · refine both_endLine.seq <| (both_emit _).seq ?_
      exact (both_freshOf _ (both_writeRecords (paired_zip hinner hrest hrecords))).seq hclose
  | cons zeroth others =>
    intro hrecords htwins
    obtain ⟨zeroth', others', hzeroth, hothers, heq⟩ := List.forall₂_cons_left_iff.mp htwins
    rw [heq] at hrecords ⊢
    have hall := paired_zip hinner
      (List.rel_append (hothers.imp fun _ _ h => h.mono (Nat.sub_le k 1)) hrest) hrecords
    refine both_endLine.seq <| (both_emit _).seq <| hzeroth.inStep_recordValue.bind
      fun first first' hfirst => ?_
    refine inStep_atNode (both_matchNil hfirst.nil_iff ?_ ?_)
    · exact (both_freshOf _ (both_writeRecords hall)).seq hclose
    · exact (both_zerothRecord hinner (hfirst.mono (by omega)) hall).seq hclose

end

/-! ## Definitions of functions -/
theorem isGlobal_of_ne_element (h : n.ctorIdx ≠ 11) : isGlobal n = (pure false : Write Bool) := by
  cases n with
  | element t key => exact absurd rfl h
  | _ => rfl

theorem Twin.inStep_simple (h : Twin s s' k i j) {f : Bool → Write α} {g : Bool → Write β}
    (hfg : ∀ b, (b = true → SameName s s' i j) → InStep s s' ps Q (f b) (g b)) :
    InStep s s' ps Q
      (do
        match ← node i with
        | .identifier _ => let b ← pure true; f b
        | n => let b ← isGlobal n; f b)
      (do
        match ← node j with
        | .identifier _ => let b ← pure true; g b
        | n => let b ← isGlobal n; g b) := by
  obtain ⟨fs, xs, hf, -, hn⟩ := h.mirror.links
  have hkind := h.ctorIdx
  refine inStep_atNode ?_
  cases hi : s.node i with
  | identifier x =>
    rw [hi] at hn
    rw [hn]
    exact hfg true fun _ => ⟨h.mirror.present, h.mirror.present', .inl ⟨x, hi, hn⟩⟩
  | element t key =>
    rw [hi] at hf hn
    obtain ⟨t', key', rfl, ht, hkey⟩ := forall₂_two hf
    obtain ⟨gs, ys, hm⟩ := hkey.rebuild
    rw [hn]
    refine (inStep_isGlobal t key t' key').bind ?_
    rintro a b ⟨rfl, rfl⟩
    rw [ht.isBuiltin]
    refine hfg _ fun hglobal => ⟨h.mirror.present, h.mirror.present', .inr ?_⟩
    exact ⟨t, key, t', key', gs, ys, hi, hn, hglobal, ht.isBuiltin.trans hglobal, hm⟩
  | _ =>
    rw [hi] at hkind
    dsimp only
    split
    · rename_i hj
      rw [hj] at hkind
      cases hkind
    · rw [isGlobal_of_ne_element, isGlobal_of_ne_element]
      · exact hfg false (by simp)
      · rw [hkind]
        exact Nat.ne_of_beq_eq_false rfl
      · exact Nat.ne_of_beq_eq_false rfl

theorem inStep_definition {d d' : NodeId} (hd : Twin s s' k d d') (he : Twin s s' k e e')
    {f : Option (NodeId × NodeId) → Write α} {g : Option (NodeId × NodeId) → Write β}
    (hnone : InStep s s' ps Q (f none) (g none))
    (hsome : SameName s s' d d' → (s.node e).ctorIdx = 1 →
      InStep s s' ps Q (f (some (d, e))) (g (some (d', e')))) :
    InStep s s' ps Q
      (do
        match ← node e with
        | .function .. =>
          match ← node d with
          | .identifier _ => let b ← pure true; let x ← pure (if b then some (d, e) else none); f x
          | n => let b ← isGlobal n; let x ← pure (if b then some (d, e) else none); f x
        | _ => let x ← pure none; f x)
      (do
        match ← node e' with
        | .function .. =>
          match ← node d' with
          | .identifier _ => let b ← pure true; let x ← pure (if b then some (d', e') else none); g x
          | n => let b ← isGlobal n; let x ← pure (if b then some (d', e') else none); g x
        | _ => let x ← pure none; g x) := by
  obtain ⟨fs, xs, hf, -, hn⟩ := he.mirror.links
  have hkind := he.ctorIdx
  refine inStep_atNode ?_
  cases hnode : s.node e with
  | function a b c =>
    rw [hnode] at hf hn hsome
    obtain ⟨a', b', rfl, -, -⟩ := forall₂_two hf
    rw [hn]
    refine hd.inStep_simple fun simple hsimple => ?_
    cases simple with
    | false => exact hnone
    | true => exact hsome (hsimple rfl) rfl
  | _ =>
    rw [hnode] at hkind
    dsimp only
    split
    · rename_i hj
      rw [hj] at hkind
      cases hkind
    · exact hnone

theorem both_matchSingle {R : NodeId → NodeId → Prop} {xs ys : List NodeId}
    {x x' : NodeId → NodeId → Write Unit} :
    List.Forall₂ R is js → List.Forall₂ R xs ys →
    (∀ d e d' e', is = [d] → js = [d'] → xs = [e] → ys = [e'] → R d d' → R e e' →
      Both s s' ps (x d e) (x' d' e')) → Both s s' ps y y' →
    Both s s' ps (match is, xs with | [d], [e] => x d e | _, _ => y)
      (match js, ys with | [d], [e] => x' d e | _, _ => y') := by
  intro his hxs hsingle hother
  split
  · rename_i d e
    obtain ⟨d', rfl, hd⟩ := forall₂_one his
    obtain ⟨e', rfl, he⟩ := forall₂_one hxs
    exact hsingle d e d' e' rfl rfl rfl rfl hd he
  · rename_i hne
    split
    · obtain ⟨d, rfl, -⟩ := forall₂_one his.flip
      obtain ⟨e, rfl, -⟩ := forall₂_one hxs.flip
      exact absurd rfl (hne d e rfl)
    · exact hother

/-- An assignment that defines no function. -/
def plainAssignment (inner : NodeId → Write Unit) (kind : AssignmentKind) (es ds : NodeId) : Write Unit := do
  if kind == .localDefinition then put "local "
  startStatement .assignment
  part inner ds
  put " = "
  part inner es
  endStatement .assignment

theorem both_plainAssignment (kind : AssignmentKind) (hes : Paired s s' ps k inner inner' es es')
    (hds : Paired s s' ps k inner inner' ds ds') :
    Both s s' ps (plainAssignment inner kind es ds) (plainAssignment inner' kind es' ds') := by
  have hplain := (both_startStatement .assignment).seq <| hds.part.seq <| (both_put " = ").seq <|
    hes.part.seq <| both_endStatement .assignment
  unfold plainAssignment
  split
  · exact (both_put _).seq hplain
  · exact hplain

/-- An assignment of a function to a variable leaves out the lists of the assignment and writes
the function, which then is a part of the assignment itself. -/
theorem both_writeAssignment (hes : Paired s s' ps k inner inner' es es')
    (hds : Paired s s' ps k inner inner' ds ds')
    (hfunction : ∀ d e e', (s.node ds).items = [d] → (s.node es).items = [e] → (s'.node es').items = [e'] →
      (s.node e).ctorIdx = 1 → Twin s s' k e e' → Paired s s' ps k inner inner' e e') :
    Both s s' ps (writeAssignment inner kind es ds) (writeAssignment inner' kind es' ds') := by
  refine hds.twin.inStep_items.bind ?_
  rintro _ _ ⟨rfl, rfl, htargets⟩
  refine hes.twin.inStep_items.bind ?_
  rintro _ _ ⟨rfl, rfl, hvalues⟩
  have hplain := both_plainAssignment kind hes hds
  refine both_matchSingle htargets hvalues ?_ hplain
  intro d e d' e' hd hd' he he' htarget hvalue
  refine inStep_definition htarget hvalue hplain fun hname hkind => ?_
  have hpart := hfunction d e e' hd he he' hkind (hvalue.mono (Nat.sub_le k 1))
  refine (both_modifyFrame ?_).seq <| hpart.part.seq <| hds.leaveOut.seq hes.leaveOut
  intro x y h
  exact ⟨h.current, rfl, .some hname⟩

/-! ## Nodes -/

theorem aligned_cons (h : Aligned ps) (hne : ∀ p ∈ ps, i ≠ p.1 ∧ j ≠ p.2) : Aligned ((i, j) :: ps) := by
  intro p hp q hq
  cases List.mem_cons.mp hp with
  | inl hp =>
    cases List.mem_cons.mp hq with
    | inl hq => simp [hp, hq]
    | inr hq => simp [hp, hne q hq]
  | inr hp =>
    cases List.mem_cons.mp hq with
    | inl hq => simp [hq, (hne p hp).1.symm, (hne p hp).2.symm]
    | inr hq => exact h p hp q hq

theorem items_of_function (h : n.ctorIdx = 1) : n.items = [] := by
  cases n with
  | function a b c => rfl
  | _ => cases h

theorem Twin.items (h : Twin s s' k i j) :
    List.Forall₂ (Twin s s' (k - 1)) (s.node i).items (s'.node j).items := by
  obtain ⟨fs, xs, hf, hx, hn⟩ := h.mirror.links
  rw [hn, (links_rebuild _ hf.length_eq.symm hx.length_eq.symm).2]
  exact hx

theorem ne_of_items {x : NodeId} (h : (s.node a).items = [x]) (he : (s.node e).ctorIdx = 1) : e ≠ a := by
  rintro rfl
  rw [items_of_function he] at h
  cases h

section
variable (hinner : ∀ a b, Twin s s' k a b → FreshInStep s s' (inner a) (inner' b))
include hinner

theorem freshInStep_writeAssignment (hes : Twin s s' k es es') (hds : Twin s s' k ds ds')
    (halign : Aligned [(es, es'), (ds, ds')]) :
    FreshInStep s s' (writeAssignment inner kind es ds) (writeAssignment inner' kind es' ds') := by
  by_cases hfunction : ∃ d e e', (s.node ds).items = [d] ∧ (s.node es).items = [e] ∧
    (s'.node es').items = [e'] ∧ (s.node e).ctorIdx = 1
  · obtain ⟨d, e, e', hd, he, he', hkind⟩ := hfunction
    obtain ⟨d', hd', -⟩ := forall₂_one (hd ▸ hds.items)
    obtain ⟨_, hitem, hvalue⟩ := forall₂_one (he ▸ hes.items)
    obtain rfl : e' = _ := List.singleton_inj.mp (he'.symm.trans hitem)
    have hkind' := hvalue.ctorIdx.trans hkind
    have hne : ∀ p ∈ [(es, es'), (ds, ds')], e ≠ p.1 ∧ e' ≠ p.2 := by
      simp [ne_of_items he hkind, ne_of_items he' hkind', ne_of_items hd hkind, ne_of_items hd' hkind']
    have halign := aligned_cons halign hne
    refine (both_writeAssignment (hes.paired hinner halign (by simp))
      (hds.paired hinner halign (by simp)) ?_).fresh
    intro _ f f' _ hf hf' _ htwin
    refine htwin.paired hinner halign ?_
    simp [List.singleton_inj.mp (he.symm.trans hf), List.singleton_inj.mp (he'.symm.trans hf')]
  · refine (both_writeAssignment (hes.paired hinner halign (by simp))
      (hds.paired hinner halign (by simp)) ?_).fresh
    intro d e e' hd he he' hkind
    exact absurd ⟨d, e, e', hd, he, he', hkind⟩ hfunction

end

/-- A function, given the statement that it is written in. -/
def functionWith (inner : NodeId → Write Unit) (f : Frame) (arguments statements : NodeId) :
    Write Unit := do
  match f.functionName with
  | some name =>
    startStatement .function
    if f.functionLocal then put "local "
    put "function "
    part inner name
    put "("
    modifyFrame ({ · with functionName := none })
  | none => put "function ("
  part inner arguments
  put ")"
  endLine
  part inner statements
  put "end"
  if f.functionName.isSome then endStatement .function

theorem writeFunction_eq (arguments statements : NodeId) : writeFunction inner arguments statements =
    (do functionWith inner (← frame) arguments statements) := rfl

theorem both_functionWith {f f' : Frame} (hf : FrameAlike s s' f f')
    (has : Paired s s' ps k inner inner' as as')
    (hss : Paired s s' ps k inner inner' ss ss')
    (hname : ∀ a b, f.functionName = some a → f'.functionName = some b → SameName s s' a b →
      Both s s' ps (part inner a) (part inner' b)) :
    Both s s' ps (functionWith inner f as ss) (functionWith inner' f' as' ss') := by
  have hbody : ∀ {x y : Write Unit}, Both s s' ps x y → Both s s' ps
      (do part inner as; put ")"; endLine; part inner ss; put "end"; x)
      (do part inner' as'; put ")"; endLine; part inner' ss'; put "end"; y) := fun h =>
    has.part.seq <| (both_put _).seq <| both_endLine.seq <| hss.part.seq <| (both_put _).seq h
  obtain ⟨current, name, isLocal⟩ := f
  obtain ⟨current', name', isLocal'⟩ := f'
  obtain rfl : isLocal = isLocal' := hf.functionLocal
  cases hf.functionName with
  | none => exact (both_put _).seq <| hbody both_pure
  | @some a b hsame =>
    have hnamed : Both s s' ps
        (do put "function "; part inner a; put "("; modifyFrame ({ · with functionName := none })
            part inner as; put ")"; endLine; part inner ss; put "end"; endStatement .function)
        (do put "function "; part inner' b; put "("; modifyFrame ({ · with functionName := none })
            part inner' as'; put ")"; endLine; part inner' ss'; put "end"; endStatement .function) := by
      refine (both_put _).seq <| (hname a b rfl rfl hsame).seq <| (both_put _).seq ?_
      refine (both_modifyFrame ?_).seq <| hbody (both_endStatement _)
      intro x y h
      exact ⟨h.current, h.functionLocal, .none⟩
    refine (both_startStatement _).seq ?_
    cases isLocal with
    | true => exact (both_put _).seq hnamed
    | false => exact hnamed

theorem SameName.ne_list (h : SameName s s' a b) (hi : isListNode (s.node i) = true)
    (hj : isListNode (s'.node j) = true) : a ≠ i ∧ b ≠ j := by
  obtain ⟨-, -, ⟨x, ha, hb⟩ | ⟨t, key, t', key', fs, xs, ha, hb, -⟩⟩ := h
  all_goals
    refine ⟨?_, ?_⟩
    · rintro rfl
      simp [ha, isListNode] at hi
    · rintro rfl
      simp [hb, isListNode] at hj

theorem Twin.pos (h : Twin s s' k i j) : 0 < k := by
  cases k with
  | zero => exact h.elim
  | succ k => exact Nat.succ_pos k

theorem Twin.isListNode (h : Twin s s' k i j) : isListNode (s'.node j) = isListNode (s.node i) := by
  obtain ⟨fs, xs, hn⟩ := h.rebuild
  rw [hn, isListNode_rebuild]

/-- Nodes that are written in step whenever their parts are. -/
def isWrittenByParts : Node → Bool
  | .function .. | .table .. | .assignment .. | .call .. => false
  | n => isStructured n

theorem both_writeNode (hf : List.Forall₂ (Paired s s' ps k inner inner') n.fields fs)
    (hx : List.Forall₂ (Paired s s' ps k inner inner') n.items xs) (hn : isWrittenByParts n = true) :
    Both s s' ps (writeNode inner n) (writeNode inner' (n.rebuild fs xs)) := by
  cases n with
  | absent | block | jump | test | iterate | count | stop | function | table | assignment | call => cases hn
  | tableRecord a b =>
    obtain ⟨a', b', rfl, ha, hb⟩ := forall₂_two hf
    exact both_writeTableRecord ha hb
  | binary op a b =>
    obtain ⟨a', b', rfl, ha, hb⟩ := forall₂_two hf
    exact both_writeBinary ha hb
  | element a b =>
    obtain ⟨a', b', rfl, ha, hb⟩ := forall₂_two hf
    exact both_writeElement ha hb
  | elseIf a b =>
    obtain ⟨a', b', rfl, ha, hb⟩ := forall₂_two hf
    exact both_writeElseIf ha hb
  | whileLoop a b =>
    obtain ⟨a', b', rfl, ha, hb⟩ := forall₂_two hf
    exact both_writeWhile ha hb
  | repeatLoop a b =>
    obtain ⟨a', b', rfl, ha, hb⟩ := forall₂_two hf
    exact both_writeRepeat ha hb
  | arrayRecord a =>
    obtain ⟨a', rfl, ha⟩ := forall₂_one hf
    exact ha.part
  | unary op a =>
    obtain ⟨a', rfl, ha⟩ := forall₂_one hf
    exact both_writeUnary ha
  | ret a =>
    obtain ⟨a', rfl, ha⟩ := forall₂_one hf
    exact both_writeReturn ha
  | numericFor a b c =>
    obtain ⟨a', b', c', rfl, ha, hb, hc⟩ := forall₂_three hf
    exact both_writeFor ha hb hc
  | iteratorFor a b c =>
    obtain ⟨a', b', c', rfl, ha, hb, hc⟩ := forall₂_three hf
    exact both_writeFor hb ha hc
  | ifElse c t is e =>
    obtain ⟨c', t', e', rfl, hc, ht, he⟩ := forall₂_three hf
    exact both_writeIf hc ht hx he
  | list kind is =>
    cases kind with
    | statements => exact both_writeStatements hx
    | records => exact both_writeRecords hx
    | _ => exact both_separated (both_put _) hx
  | identifier x => exact both_writeIdentifier x
  | constant kind value => exact both_writeConstant kind value
  | primitive kind => cases kind <;> exact both_put _
  | multres | vararg => exact both_put _
  | breakLoop => exact (both_startStatement _).seq <| (both_put _).seq <| both_endStatement _

theorem zip_subset_parts (hf : fs.length = n.fields.length) (hx : xs.length = n.items.length)
    (hn : isStructured n = true) :
    n.fields.zip fs ++ n.items.zip xs ⊆ n.children.zip (n.rebuild fs xs).children := by
  cases n with
  | absent | block | jump | test | iterate | count | stop => cases hn
  | identifier | multres | vararg | breakLoop | constant | primitive => simp [Node.fields, Node.items]
  | list => simp [Node.fields, Node.items, Node.children, Node.rebuild]
  | ifElse c t is e =>
    obtain ⟨c', t', e', rfl⟩ := List.length_eq_three.mp hf
    have hzip : (is ++ [e]).zip (xs ++ [e']) = is.zip xs ++ [(e, e')] := List.zip_append hx.symm
    intro p hp
    simp only [Node.fields, Node.items, Node.children, Node.rebuild, List.zip_cons_cons, List.zip_nil_left,
      List.cons_append, List.mem_cons, List.mem_append, List.not_mem_nil, hzip] at hp ⊢
    tauto
  | numericFor | iteratorFor =>
    obtain ⟨a, b, c, rfl⟩ := List.length_eq_three.mp hf
    simp [Node.fields, Node.items, Node.children, Node.rebuild]
  | arrayRecord | unary | ret =>
    obtain ⟨a, rfl⟩ := List.length_eq_one_iff.mp hf
    simp [Node.fields, Node.items, Node.children, Node.rebuild]
  | _ =>
    obtain ⟨a, b, rfl⟩ := List.length_eq_two.mp hf
    simp [Node.fields, Node.items, Node.children, Node.rebuild]

section
variable (hinner : ∀ a b, Twin s s' k a b → FreshInStep s s' (inner a) (inner' b))
  (hnames : 0 < k → ∀ a b, SameName s s' a b → FreshInStep s s' (inner a) (inner' b))
include hinner

theorem Mirror.paired (h : Mirror s s' (Twin s s' k) i j) : ∃ ps fs xs, Aligned ps ∧
    ps = (s.node i).children.zip (s'.node j).children ∧
    List.Forall₂ (Paired s s' ps k inner inner') (s.node i).fields fs ∧
    List.Forall₂ (Paired s s' ps k inner inner') (s.node i).items xs ∧
      s'.node j = (s.node i).rebuild fs xs := by
  obtain ⟨fs, xs, hf, hx, hn⟩ := h.links
  have hparts := zip_subset_parts hf.length_eq.symm hx.length_eq.symm h.structured
  rw [← hn] at hparts
  refine ⟨_, fs, xs, h.parts, rfl, ?_, ?_, hn⟩
  · refine List.forall₂_iff_zip.mpr ⟨hf.length_eq, fun hmem => ?_⟩
    exact ((List.forall₂_iff_zip.mp hf).2 hmem).paired hinner h.parts (hparts (List.mem_append_left _ hmem))
  · refine List.forall₂_iff_zip.mpr ⟨hx.length_eq, fun hmem => ?_⟩
    exact ((List.forall₂_iff_zip.mp hx).2 hmem).paired hinner h.parts (hparts (List.mem_append_right _ hmem))

include hnames

theorem freshInStep_writeFunction (has : Twin s s' k as as') (hss : Twin s s' k ss ss')
    (halign : Aligned [(as, as'), (ss, ss')])
    (hlists : isListNode (s.node as) = true ∧ isListNode (s.node ss) = true) :
    FreshInStep s s' (writeFunction inner as ss) (writeFunction inner' as' ss') := by
  rw [writeFunction_eq, writeFunction_eq]
  intro w w' hw hdone hdone'
  have hframe := hw.frame
  suffices hbody : FreshInStep s s' (functionWith inner (w.own.frames.headD {}) as ss)
      (functionWith inner' (w'.own.frames.headD {}) as' ss') from hbody w w' hw hdone hdone'
  have hparts : ∀ p ∈ [(as, as'), (ss, ss')],
      isListNode (s.node p.1) = true ∧ isListNode (s'.node p.2) = true := by
    simp [hlists, has.isListNode, hss.isListNode]
  have hrel := hframe.functionName
  cases hname : (w.own.frames.headD {}).functionName with
  | none =>
    refine (both_functionWith hframe (has.paired hinner halign (by simp))
      (hss.paired hinner halign (by simp)) ?_).fresh
    intro a b ha
    cases hname.symm.trans ha
  | some a =>
    rw [hname] at hrel
    obtain ⟨b, hname', hsame⟩ : ∃ b, (w'.own.frames.headD {}).functionName = some b ∧ SameName s s' a b := by
      revert hrel
      cases (w'.own.frames.headD {}).functionName with
      | none => intro hrel; cases hrel
      | some b => intro hrel; exact ⟨b, rfl, Option.rel_some_some.mp hrel⟩
    have hnew := aligned_cons halign fun p hp => hsame.ne_list (hparts p hp).1 (hparts p hp).2
    refine (both_functionWith hframe (has.paired hinner hnew (by simp))
      (hss.paired hinner hnew (by simp)) ?_).fresh
    intro a' b' ha hb _
    obtain rfl : a = a' := Option.some_inj.mp (hname.symm.trans ha)
    obtain rfl : b = b' := Option.some_inj.mp (hname'.symm.trans hb)
    exact both_part hsame.1 hsame.2.1 hnew (by simp) (hnames has.pos a b hsame)

/-- Every node is written in step with its counterpart. -/
theorem freshInStep_writeNode (h : Mirror s s' (Twin s s' k) i j) :
    FreshInStep s s' (writeNode inner (s.node i)) (writeNode inner' (s'.node j)) := by
  obtain ⟨ps, fs, xs, halign, rfl, hf, hx, hn⟩ := h.paired hinner
  have hstructured := h.structured
  cases hi : s.node i with
  | function a b c =>
    rw [hi] at hf hn halign
    obtain ⟨a', b', rfl, ha, hb⟩ := forall₂_two hf
    rw [hn] at halign ⊢
    exact freshInStep_writeFunction hinner hnames ha.twin hb.twin halign (h.lists a b c hi)
  | assignment kind es ds =>
    rw [hi] at hf hn halign
    obtain ⟨es', ds', rfl, hes, hds⟩ := forall₂_two hf
    rw [hn] at halign ⊢
    exact freshInStep_writeAssignment hinner hes.twin hds.twin halign
  | table a r =>
    rw [hi] at hf hn
    obtain ⟨a', r', rfl, ha, hr⟩ := forall₂_two hf
    have hrecords := h.records a r a' r' hi hn
    rw [hn]
    exact (both_writeTable hinner ha hr hrecords).fresh
  | call f as =>
    rw [hi] at hf hn
    obtain ⟨f', as', rfl, hf, has⟩ := forall₂_two hf
    have hcalls := h.calls
    rw [hi, hn] at hcalls
    rw [hn]
    exact (both_writeCall hf has hcalls.1 hcalls.2).fresh
  | _ =>
    rw [hi] at hf hx hn hstructured
    rw [hn]
    exact (both_writeNode hf hx hstructured).fresh

end

/-! ## Whole trees -/

theorem both_leaveOut_nil (a b : NodeId) : Both s s' [] (leaveOut a) (leaveOut b) := by
  intro w w' hw
  exact .inl ⟨(), (), _, _, rfl, rfl, { hw with done := by simp }, trivial⟩

theorem freshInStep_name (h : SameName s s' a b) (d d' : Nat) :
    FreshInStep s s' (write (d + 1) a) (write (d' + 1) b) := by
  obtain ⟨-, -, ⟨x, ha, hb⟩ | ⟨t, key, t', key', fs, xs, ha, hb, ht, ht', hkey⟩⟩ := h
  · have hboth : Both s s' [] (write (d + 1) a) (write (d' + 1) b) := by
      refine inStep_atNode ?_
      rw [ha, hb]
      exact both_writeIdentifier x
    exact hboth.fresh
  · have hboth : Both s s' [] (write (d + 1) a) (write (d' + 1) b) := by
      refine inStep_atNode ?_
      rw [ha, hb]
      refine inStep_atNode ?_
      rw [hkey, isNameKey_rebuild, keyText_rebuild]
      refine inStep_atNameKey fun bare => (inStep_isGlobal t key t' key').bind ?_
      rintro _ _ ⟨rfl, rfl⟩
      rw [ht, ht']
      exact (both_require _ _).seq <| (both_leaveOut_nil t t').seq <|
        (both_leaveOut_nil key key').seq <| both_put _
    exact hboth.fresh

theorem freshInStep_write {d d' : Nat} (h : Twin s s' k i j) (hd : k ≤ d) (hd' : k ≤ d') :
    FreshInStep s s' (write d i) (write d' j) := by
  induction k generalizing i j d d' with
  | zero => exact h.elim
  | succ k ih =>
    obtain ⟨d, rfl⟩ : ∃ n, d = n + 1 := ⟨d - 1, by omega⟩
    obtain ⟨d', rfl⟩ : ∃ n, d' = n + 1 := ⟨d' - 1, by omega⟩
    have hinner : ∀ a b, Twin s s' k a b → FreshInStep s s' (write d a) (write d' b) := by
      intro a b hab
      exact ih hab (by omega) (by omega)
    have hnames : 0 < k → ∀ a b, SameName s s' a b → FreshInStep s s' (write d a) (write d' b) := by
      intro hk a b hab
      obtain ⟨d, rfl⟩ : ∃ n, d = n + 1 := ⟨d - 1, by omega⟩
      obtain ⟨d', rfl⟩ : ∃ n, d' = n + 1 := ⟨d' - 1, by omega⟩
      exact freshInStep_name hab d d'
    intro w w' hw hdone hdone'
    have hnode := freshInStep_writeNode hinner hnames h w w' hw hdone hdone'
    rw [← hw.store, ← hw.store'] at hnode
    rw [← hw.store, ← hw.store']
    exact hnode

theorem run_commands {c : Scope} (hr : s.node root = .function a ss c) :
    commands root ⟨s, ()⟩ = match part (write s.depth) ss ⟨s, {}⟩ with
      | .ok _ v => .ok v.own.commands.toList ⟨v.store, ()⟩
      | .error e v => .error e ⟨v.store, ()⟩ := by
  have hget : (get : Edit (Work Unit)) ⟨s, ()⟩ = .ok ⟨s, ()⟩ ⟨s, ()⟩ := rfl
  simp only [commands, node, within, bind, EStateM.bind, hget, pure, EStateM.pure, hr]
  cases part (write s.depth) ss ⟨s, {}⟩ <;> rfl

theorem run_text : ((text root).run' s).1 = match commands root ⟨s, ()⟩ with
    | .ok cs _ => .ok (render cs)
    | .error e _ => .error e := by
  change (Edit.run' (EStateM.bind (commands root) _) s).1 = _
  simp only [Edit.run', EStateM.bind]
  cases commands root ⟨s, ()⟩ <;> rfl

/-- Programs whose statements are alike have the same text, or fail for the same reason. -/
theorem text_eq {root' : NodeId} {c c' : Scope} (hr : s.node root = .function a ss c)
    (hr' : s'.node root' = .function a' ss' c') (h : Twin s s' k ss ss') (hd : k ≤ s.depth)
    (hd' : k ≤ s'.depth) : ((text root).run' s).1 = ((text root').run' s').1 := by
  have hpart := both_part h.mirror.present h.mirror.present' aligned_singleton (List.mem_singleton.mpr rfl)
    (freshInStep_write h hd hd')
  have hstart : Alike s s' [(ss, ss')] ⟨s, {}⟩ ⟨s', {}⟩ := ⟨rfl, rfl, rfl, by simp, .cons .default .nil⟩
  obtain ⟨x, y, v, v', hx, hy, hv, -⟩ | ⟨e, v, v', hx, hy⟩ := hpart _ _ hstart
  · simp only [run_text, run_commands hr, run_commands hr', hx, hy, hv.commands]
  · simp only [run_text, run_commands hr, run_commands hr', hx, hy]

end LuaLift.Proofs
