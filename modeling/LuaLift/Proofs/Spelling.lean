import Mathlib.Data.List.Nodup
import Mathlib.Data.List.Perm.Subperm
import LuaLift.Proofs.Expression
import LuaLift.Proofs.Growth

/-! # The writer on expressions

`Issues` says what a part of the writer does: the commands that it issues, and how the
record of parts that are done and the frames change. While a statement is open, an
expression issues text only (`Emits`). Of an expression without shared nodes the writer emits the
  pieces, and the
text of a program that returns the expression is made of them. -/
namespace LuaLift.Proofs
open Tree Lua Pass

/-- An action issues the commands `cs` and changes the record of parts that are done from
`before` to `after` and the frames from `fs` to `fs'`. -/
def Issues (s : Store) (act : Write Unit) (cs : List Command) (before after : List NodeId)
    (fs fs' : List Frame) : Prop :=
  ∀ old : Array Command, Returns act ⟨s, ⟨old, before, fs⟩⟩ () ⟨s, ⟨old ++ cs.toArray, after, fs'⟩⟩

/-- An action writes the pieces `ps` and leaves the frames as they are. -/
abbrev Emits (s : Store) (act : Write Unit) (ps : List String) (before after : List NodeId)
    (fs : List Frame) : Prop :=
  Issues s act (ps.map Command.text) before after fs fs

variable {e e' : Expr} {aa ids ids' : List NodeId} {ps : List String} {a i k t root : NodeId}
  {inner : NodeId → Write Unit} {x : String}

section
variable {s : Store} {fs fs' fs'' : List Frame} {before between after : List NodeId}
  {act : Write Unit} {rest : Unit → Write Unit} {cs ds : List Command}

theorem Issues.bind (h : Issues s act cs before between fs fs')
    (h' : Issues s (rest ()) ds between after fs' fs'') :
    Issues s (act >>= rest) (cs ++ ds) before after fs fs'' := by
  intro old
  have := (h old).ofBind (h' _)
  rwa [← List.append_toArray, ← Array.append_assoc]

theorem issues_pure : Issues s (pure ()) [] before before fs fs := by
  intro old
  simp [Returns, Pure.pure, EStateM.pure]

theorem issues_put (t : String) : Issues s (put t) [.text t] before before fs fs := fun _ => rfl

theorem issues_leaveOut (i : NodeId) : Issues s (leaveOut i) [] before (i :: before) fs fs :=
  fun _ => rfl

theorem issues_query {α : Type} {ask : Write α} {a : α} {f : α → Write Unit}
    (ha : ∀ old, Returns ask ⟨s, ⟨old, before, fs⟩⟩ a ⟨s, ⟨old, before, fs⟩⟩)
    (h : Issues s (f a) cs before after fs fs') : Issues s (ask >>= f) cs before after fs fs' := by
  intro old
  exact (ha old).ofBind (h old)

theorem issues_node {f : Node → Write Unit} (h : Issues s (f (s.node i)) cs before after fs fs') :
    Issues s (node i >>= f) cs before after fs fs' := by
  intro old
  exact Returns.ofBind (rfl : Returns (node i) _ _ _) (h old)

theorem issues_require {holds : Bool} {rule : String} (h : holds = true) :
    Issues s (require holds rule) [] before before fs fs := by
  intro old
  rw [h]; rfl

theorem issues_fresh (h : Issues s act cs [] after fs fs') :
    Issues s (fresh act) cs before before fs fs' := by
  intro old
  refine Returns.ofBind (rfl : Returns own _ _ _) (Returns.ofBind (rfl : Returns (modifyOwn _) _ _ _) ?_)
  exact Returns.ofBind (h old) rfl

theorem issues_part (hi : i ≠ .absent) (hd : i ∉ before) (h : Issues s (inner i) cs [] after fs fs') :
    Issues s (part inner i) cs before (i :: before) fs fs' := by
  intro old
  refine Returns.ofBind (issues_require (by simpa using hi) old) ?_
  refine Returns.ofBind (rfl : Returns own _ _ _) ?_
  dsimp only
  rw [if_neg (by simpa using hd)]
  exact (issues_leaveOut i).bind (issues_fresh h) _

theorem emits_parenthesized {wanted : Bool} (h : Emits s act ps before after fs) :
    Emits s (parenthesized wanted act) (Expr.enclose wanted ps) before after fs := by
  unfold parenthesized
  cases wanted with
  | true =>
    have hall : Issues s (put "(" >>= fun _ => act >>= fun _ => put ")") _ before after fs fs :=
      (issues_put "(").bind (h.bind (issues_put ")"))
    simpa [Emits, Expr.enclose] using hall
  | false => simpa [Expr.enclose] using h

theorem emits_writeBinary {op : BinaryOp} {l r : NodeId} {al ar : List NodeId}
    (hop : (binarySign op).isSome) (hlr : l ≠ r) (hl : l ≠ .absent) (hr : r ≠ .absent)
    (hel : (s.node l).operatorCode? = e.code?) (her : (s.node r).operatorCode? = e'.code?)
    (hle : Emits s (inner l) e.pieces [] al fs) (hre : Emits s (inner r) e'.pieces [] ar fs) :
    Emits s (writeBinary inner op l r) (Expr.binary op e e').pieces [] [r, l] fs := by
  obtain ⟨sign, hsign⟩ := Option.isSome_iff_exists.mp hop
  have hpieces : (Expr.binary op e e').pieces.map Command.text =
      (Expr.enclose (e.enclosedIn op) e.pieces).map .text ++ ([.text sign] ++
        (Expr.enclose (e'.enclosedIn op) e'.pieces).map .text) := by
    simp [Expr.pieces, hsign]
  rw [Emits, hpieces]
  unfold writeBinary
  refine issues_node ?_
  dsimp only
  rw [hel]
  refine (emits_parenthesized (issues_part hl List.not_mem_nil hle)).bind ?_
  rw [hsign]
  refine (issues_put sign).bind (issues_node ?_)
  rw [her]
  exact emits_parenthesized (issues_part hr (by simpa using hlr.symm) hre)

theorem emits_writeUnary {op : UnaryOp} (hop : isUnarySign op) (ha : a ≠ .absent)
    (hea : (s.node a).operatorCode? = e.code?) (hae : Emits s (inner a) e.pieces [] aa fs) :
    Emits s (writeUnary inner op a) (Expr.unary op e).pieces [] [a] fs := by
  have hsign : (unarySign op).isEmpty = false :=
    match op, hop with
    | .not, _ | .length, _ | .minus, _ => rfl
  have hpieces : (Expr.unary op e).pieces.map Command.text =
      [.text (unarySign op)] ++ (Expr.enclose (e.enclosedInUnary op) e.pieces).map .text := by
    simp [Expr.pieces]
  rw [Emits, hpieces]
  unfold writeUnary
  dsimp only
  rw [hsign]
  refine (issues_put _).bind (issues_node ?_)
  rw [hea]
  exact emits_parenthesized (issues_part ha List.not_mem_nil hae)

theorem Spells.operatorCode? (h : Spells s i e ids) : (s.node i).operatorCode? = e.code? := by
  cases h <;> simp_all [Node.operatorCode?, Expr.code?]

theorem Spells.isNameKey (h : Spells s i e ids) (d : Draft) :
    Returns (Lua.isNameKey (s.node i)) ⟨s, d⟩ e.bareKey?.isSome ⟨s, d⟩ := by
  cases h with
  | text hn =>
    rw [hn]
    simp only [Expr.bareKey?]
    split
    · rename_i hname
      simp [Lua.isNameKey, hname]; rfl
    · rename_i hname
      simp [Lua.isNameKey, hname]; rfl
  | name hn | number hn | unary hn | binary hn | global hn | element hn | call hn => rw [hn]; rfl

theorem Spells.keyText (h : Spells s i e ids) (hx : e.bareKey? = some x) : Lua.keyText (s.node i) = x := by
  cases h with
  | text hn =>
    rw [hn]
    simp only [Expr.bareKey?, Option.ite_none_right_eq_some, Option.some.injEq] at hx
    exact hx.2
  | name _ | number _ | unary _ | binary _ | global _ | element _ | call _ => cases hx

theorem emits_writeElement {at' ak : List NodeId} (hb : isBuiltin (s.node t) = false)
    (ht : Spells s t e ids) (hk : Spells s k e' ids') (htk : t ≠ k) (hta : t ≠ .absent) (hka : k ≠ .absent)
    (hte : Emits s (inner t) e.pieces [] at' fs) (hke : Emits s (inner k) e'.pieces [] ak fs) :
    Emits s (writeElement inner (.element t k) t k) (Expr.element e e').pieces [] [k, t] fs := by
  unfold writeElement
  refine issues_node (issues_query (fun _ => hk.isNameKey _)
    (issues_query (a := isBuiltin (s.node t)) (fun _ => rfl) ?_))
  rw [hb]
  refine issues_node ?_
  split
  · rename_i htable
    cases ht <;> simp_all
  cases hx : e'.bareKey? with
  | some x =>
    have hpieces : (Expr.element e e').pieces.map Command.text =
        e.pieces.map .text ++ ([.text "."] ++ ([.text x] ++ [])) := by
      simp [Expr.pieces, hx]
    rw [hpieces]
    rw [hk.keyText hx]
    exact (issues_part hta List.not_mem_nil hte).bind
      ((issues_put ".").bind ((issues_put x).bind (issues_leaveOut k)))
  | none =>
    have hpieces : (Expr.element e e').pieces.map Command.text = e.pieces.map .text ++
        ([.text "["] ++ (e'.pieces.map .text ++ [.text "]"])) := by
      simp [Expr.pieces, hx]
    rw [hpieces]
    exact (emits_parenthesized (issues_part hta List.not_mem_nil hte)).bind
      ((issues_put "[").bind ((issues_part hka (by simpa using htk.symm) hke).bind (issues_put "]")))

theorem emits_global (hb : isBuiltin (s.node t)) (hk : s.node k = .constant .text (.text x)) (hx : isName x) :
    Emits s (writeElement inner (.element t k) t k) [x] [] [k, t] fs := by
  unfold writeElement
  have hname : ∀ d, Returns (Lua.isNameKey (s.node k)) ⟨s, d⟩ true ⟨s, d⟩ := by
    intro d
    rw [hk]; simp [Lua.isNameKey, hx]; rfl
  refine issues_node (issues_query (fun _ => hname _)
    (issues_query (a := isBuiltin (s.node t)) (fun _ => rfl) ?_))
  rw [hb, hk]
  exact (issues_require rfl).bind ((issues_leaveOut t).bind ((issues_leaveOut k).bind (issues_put x)))

/-- A call is no method call if the table of its function is not its first argument. -/
theorem emits_writeCall {f : NodeId} {as : List NodeId} {es : List Expr} {af : List NodeId}
    (hs : (fs.headD {}).current ≠ none) (ha : s.node a = .list .expressions as) (hf : Spells s f e ids)
    (has : SpellsAll s as es ids') (hd : ∀ x ∈ ids, x ∉ ids') (hfa : f ≠ a) (hf0 : f ≠ .absent)
    (ha0 : a ≠ .absent) (hfe : Emits s (inner f) e.pieces [] af fs)
    (hae : Emits s (inner a) (Expr.piecesOfList es) [] aa fs) :
    Emits s (writeCall inner f a) (Expr.call e es).pieces [] [a, f] fs := by
  have hmethod : ∀ d, Returns (method? (s.node f) as) ⟨s, d⟩ none ⟨s, d⟩ := by
    intro d
    have key : ∀ {t k first rest}, s.node f = .element t k → as = first :: rest → t ∈ ids →
        (∃ b, ∀ d, Returns (Lua.isNameKey (s.node k)) ⟨s, d⟩ b ⟨s, d⟩) →
        Returns (method? (s.node f) as) ⟨s, d⟩ none ⟨s, d⟩ := by
      rintro t k first rest hn rfl ht ⟨b, hb⟩
      have hne : (t == first) = false := by
        rw [beq_eq_false_iff_ne]
        rintro rfl
        exact hd t ht (has.subset _ List.mem_cons_self)
      rw [hn]
      refine Returns.ofBind (rfl : Returns (node k) _ _ _) (Returns.ofBind (hb d) ?_)
      rw [hne]
      cases b <;> rfl
    cases has with
    | nil => cases hf <;> simp_all [method?] <;> rfl
    | cons h1 h2 =>
      cases hf with
      | element hn _ ht hk =>
        exact key hn rfl (by simp [ht.mem]) ⟨_, hk.isNameKey⟩
      | global hn _ hk hx =>
        refine key hn rfl (by simp) ⟨true, fun d => ?_⟩
        rw [hk]; simp [Lua.isNameKey, hx]; rfl
      | name hn | number hn | text hn | unary hn | binary hn | call hn => rw [hn]; rfl
  have hpieces : (Expr.call e es).pieces.map Command.text = e.pieces.map .text ++
      ([.text "("] ++ ((Expr.piecesOfList es).map .text ++ ([.text ")"] ++ []))) := by
    simp [Expr.pieces]
  rw [Emits, hpieces]
  unfold writeCall
  refine issues_query (a := fs.headD {}) (fun _ => rfl) ?_
  have hopen : ((fs.headD {}).current == none) = false := beq_eq_false_iff_ne.mpr hs
  rw [hopen]
  have hitems : ∀ d : Draft, Returns (items a) ⟨s, d⟩ as ⟨s, d⟩ := by
    intro d
    refine Returns.ofBind (rfl : Returns (node a) _ _ _) ?_
    rw [show (Store.node s a) = .list .expressions as from ha]; rfl
  refine issues_query (fun _ => hitems _) (issues_node (issues_query (fun _ => hmethod _) ?_))
  exact (issues_part hf0 List.not_mem_nil hfe).bind ((issues_put "(").bind
    ((issues_part ha0 (by simpa using hfa.symm) hae).bind ((issues_put ")").bind issues_pure)))

theorem Spells.id_ne_absent (hm : s.node .absent = .absent) (h : Spells s i e ids) : i ≠ .absent := by
  rintro rfl
  exact h.ne_absent hm

theorem issues_write {n : Nat} {x : Node} (hx : s.node i = x)
    (h : Issues s (writeNode (write n) x) cs before after fs fs') :
    Issues s (write (n + 1) i) cs before after fs fs' := by
  subst hx
  exact issues_node h

theorem writeIdentifier_eq (x : Identifier) : writeIdentifier x = put (identifierText x) := by
  unfold writeIdentifier identifierText
  cases x.kind <;> rfl

mutual

/-- Of an expression without shared nodes the writer emits the pieces. -/
theorem Spells.emits (hm : s.node .absent = .absent) (hs : (fs.headD {}).current ≠ none) :
    ∀ {n : Nat} {i : NodeId} {e : Expr} {ids : List NodeId}, Spells s i e ids → ids.Nodup →
      ids.length ≤ n + 1 → ∃ after, Emits s (write (n + 1) i) e.pieces [] after fs
  | n, i, _, _, .name hn, _, _ => by
    refine ⟨[], issues_write hn ?_⟩
    rw [writeNode, writeIdentifier_eq]
    exact issues_put _
  | n, i, _, _, .number hn, _, _ => ⟨[], issues_write hn (issues_put _)⟩
  | n, i, _, _, .text hn, _, _ => ⟨[], issues_write hn (issues_put _)⟩
  | n, i, _, _, .unary hn hop ha, hd, hlen => by
    have := List.length_pos_of_mem ha.mem
    obtain ⟨m, rfl⟩ : ∃ m, n = m + 1 := Nat.exists_eq_succ_of_ne_zero (by simp at hlen; omega)
    obtain ⟨_, hae⟩ := Spells.emits hm hs (n := m) ha hd.of_cons (by simpa using hlen)
    exact ⟨_, issues_write hn (emits_writeUnary hop (ha.id_ne_absent hm) ha.operatorCode? hae)⟩
  | n, i, _, _, .binary hn hop hl hr, hd, hlen => by
    obtain ⟨hdl, hdr, hdisj⟩ := List.nodup_append.mp (List.nodup_cons.mp hd).2
    have := List.length_pos_of_mem hl.mem
    rw [List.cons_append, List.length_cons, List.length_append] at hlen
    obtain ⟨m, rfl⟩ : ∃ m, n = m + 1 := Nat.exists_eq_succ_of_ne_zero (by omega)
    obtain ⟨_, hle⟩ := Spells.emits hm hs (n := m) hl hdl (by omega)
    obtain ⟨_, hre⟩ := Spells.emits hm hs (n := m) hr hdr (by omega)
    exact ⟨_, issues_write hn (emits_writeBinary hop (hdisj _ hl.mem _ hr.mem) (hl.id_ne_absent hm)
      (hr.id_ne_absent hm) hl.operatorCode? hr.operatorCode? hle hre)⟩
  | n, i, _, _, .global hn hb hk hx, _, _ => ⟨_, issues_write hn (emits_global hb hk hx)⟩
  | n, i, _, _, .element hn hb ht hk, hd, hlen => by
    obtain ⟨hdt, hdk, hdisj⟩ := List.nodup_append.mp (List.nodup_cons.mp hd).2
    have := List.length_pos_of_mem ht.mem
    rw [List.cons_append, List.length_cons, List.length_append] at hlen
    obtain ⟨m, rfl⟩ : ∃ m, n = m + 1 := Nat.exists_eq_succ_of_ne_zero (by omega)
    obtain ⟨_, hte⟩ := Spells.emits hm hs (n := m) ht hdt (by omega)
    obtain ⟨_, hke⟩ := Spells.emits hm hs (n := m) hk hdk (by omega)
    exact ⟨_, issues_write hn (emits_writeElement hb ht hk (hdisj _ ht.mem _ hk.mem)
      (ht.id_ne_absent hm) (hk.id_ne_absent hm) hte hke)⟩
  | n, i, _, _, .call (a := a) hn ha hf has, hd, hlen => by
    obtain ⟨hdf, hda, hdisj⟩ := List.nodup_append.mp (List.nodup_cons.mp hd).2
    have := List.length_pos_of_mem hf.mem
    rw [List.cons_append, List.length_cons, List.length_append, List.length_cons] at hlen
    obtain ⟨m, rfl⟩ : ∃ m, n = m + 2 := ⟨n - 2, by omega⟩
    obtain ⟨_, hfe⟩ := Spells.emits hm hs (n := m + 1) hf hdf (by omega)
    obtain ⟨_, hae⟩ := SpellsAll.emits hm hs (n := m) has hda.of_cons (by omega)
      (fun _ _ => List.not_mem_nil)
    have ha0 : a ≠ .absent := by
      rintro rfl
      rw [hm] at ha; cases ha
    exact ⟨_, issues_write hn (emits_writeCall hs ha hf has
      (fun x hx hx' => hdisj x hx x (List.mem_cons_of_mem _ hx') rfl)
      (hdisj _ hf.mem _ List.mem_cons_self) (hf.id_ne_absent hm) ha0 hfe (issues_write ha hae))⟩

theorem SpellsAll.emits (hm : s.node .absent = .absent) (hs : (fs.headD {}).current ≠ none) :
    ∀ {n : Nat} {as : List NodeId} {es : List Expr} {ids before : List NodeId},
      SpellsAll s as es ids → ids.Nodup → ids.length ≤ n + 1 → (∀ a ∈ as, a ∉ before) →
      ∃ after, Emits s (separated (write (n + 1)) (put ", ") as) (Expr.piecesOfList es) before after fs
  | n, _, _, _, before, .nil, _, _, _ => ⟨before, issues_pure⟩
  | n, _, _, _, before, .cons h .nil, hd, hn, hb => by
    rw [List.append_nil] at hd hn
    obtain ⟨after, he⟩ := Spells.emits hm hs (n := n) h hd hn
    exact ⟨_, issues_part (h.id_ne_absent hm) (hb _ List.mem_cons_self) he⟩
  | n, _, _, _, before, .cons (i := i) h (.cons h' hs'), hd, hn, hb => by
    obtain ⟨hdh, hdt, hdisj⟩ := List.nodup_append.mp hd
    rw [List.length_append] at hn
    obtain ⟨_, he⟩ := Spells.emits hm hs (n := n) h hdh (by omega)
    have hrest := SpellsAll.cons h' hs'
    have hleft : ∀ a ∈ _ :: _, a ∉ i :: before := fun a ha hmem => by
      rcases List.mem_cons.mp hmem with rfl | hmem
      · exact hdisj _ h.mem _ (hrest.subset _ ha) rfl
      · exact hb _ (List.mem_cons_of_mem _ ha) hmem
    obtain ⟨after, hes⟩ := SpellsAll.emits hm hs (n := n) (.cons h' hs') hdt (by omega) hleft
    refine ⟨after, ?_⟩
    rw [Emits, Expr.piecesOfList, List.map_append, List.map_cons]
    rotate_left
    · exact nofun
    exact (issues_part (h.id_ne_absent hm) (hb _ List.mem_cons_self) he).bind
      ((issues_put ", ").bind hes)

end

/-- Function `root` has one statement, which returns node `i`. -/
structure IsReturn (s : Store) (root i : NodeId) : Prop where
  missing : s.node .absent = .absent
  node : ∃ as body scope ret vs, s.node root = .function as body scope ∧
    s.node body = .list .statements [ret] ∧ s.node ret = .ret vs ∧
    s.node vs = .list .expressions [i]

theorem renderFrom_texts {fresh : Bool} {out : String} {rest : List Command} :
    ∃ fresh', renderFrom 0 fresh out (ps.map Command.text ++ rest) =
      renderFrom 0 fresh' (out ++ String.ofList (ps.flatMap String.toList)) rest := by
  induction ps generalizing fresh out with
  | nil => exact ⟨fresh, by simp⟩
  | cons p ps ih =>
    obtain ⟨fresh', h⟩ := @ih false (out ++ p)
    refine ⟨fresh', ?_⟩
    have htabs : (if fresh then String.ofList (List.replicate 0 '\t') else "") = "" := by
      cases fresh <;> rfl
    simp only [List.map_cons, List.cons_append, renderFrom, htabs, String.append_empty, h,
      List.flatMap_cons, String.ofList_append, String.ofList_toList, String.append_assoc]

theorem issues_writeReturn {vs : NodeId} {f : Frame} (hf : f.current = none) (hvs : vs ≠ .absent)
    (h : Issues s (inner vs) cs [] after ({ f with current := some .ret } :: fs)
      ({ f with current := some .ret } :: fs)) :
    Issues s (writeReturn inner vs) (.start .ret :: .text "return " :: cs ++ [.finish .ret]) []
      [vs] (f :: fs) (f :: fs) := by
  obtain ⟨current, name, isLocal⟩ := f
  subst hf
  have hstart : Issues s (startStatement .ret) [.start .ret] [] [] (⟨none, name, isLocal⟩ :: fs)
      (⟨some .ret, name, isLocal⟩ :: fs) := fun _ => rfl
  have hend : Issues s (endStatement .ret) [.finish .ret] [vs] [vs]
      (⟨some .ret, name, isLocal⟩ :: fs) (⟨none, name, isLocal⟩ :: fs) := fun _ => rfl
  exact hstart.bind ((issues_put "return ").bind ((issues_part hvs List.not_mem_nil h).bind hend))

theorem issues_writeStatements (hi : i ≠ .absent) (h : Issues s (inner i) cs [] after [{}, {}] [{}, {}]) :
    Issues s (writeStatements inner [i]) cs [] [i] [{}] [{}] := by
  intro old
  have hpart := issues_part hi List.not_mem_nil h old
  refine Returns.ofBind (rfl : Returns own _ _ _) ?_
  refine Returns.ofBind (rfl : Returns (modifyOwn _) _ _ _) ?_
  refine Returns.ofBind (Returns.ofBind hpart (rfl : Returns (pure ()) _ _ _)) ?_
  refine Returns.ofBind (rfl : Returns (modifyOwn _) _ _ _) ?_
  exact Returns.ofBind (rfl : Returns own _ _ _) rfl

theorem returns_commands (hr : IsReturn s root i) (he : Spells s i e ids) (hd : ids.Nodup) :
    Returns (commands root) ⟨s, ()⟩ (.start .ret :: ("return " :: e.pieces).map Command.text ++
      [.finish .ret]) ⟨s, ()⟩ := by
  obtain ⟨as, body, scope, ret, vs, hroot, hbody, hret, hvs⟩ := hr.node
  have hlen := length_le_size hd he.inside
  obtain ⟨n, hdepth⟩ : ∃ n, s.depth = n + 1 + 1 + 1 + 1 := ⟨s.depth - 4, by unfold Store.depth; omega⟩
  have hn : ids.length ≤ n + 1 := by unfold Store.depth at hdepth; omega
  have present : ∀ {j x}, s.node j = x → x ≠ .absent → j ≠ .absent := by
    rintro j x hj hx rfl
    exact hx (hj ▸ hr.missing)
  have hopen : (([{ current := some .ret }, {}] : List Frame).headD {}).current ≠ none := nofun
  obtain ⟨after, hi⟩ := he.emits hr.missing hopen hd hn
  have hvalues : Emits s (write (n + 1 + 1) vs) e.pieces [] [i] _ :=
    issues_write hvs (issues_part (he.id_ne_absent hr.missing) List.not_mem_nil hi)
  have hstatement := issues_write hret (issues_writeReturn (f := {}) rfl (present hvs nofun) hvalues)
  have hlist := issues_write hbody (issues_writeStatements (present hret nofun) hstatement)
  have hpart := issues_part (present hbody nofun) List.not_mem_nil hlist #[]
  unfold commands
  refine Returns.ofBind (rfl : Returns (node root) _ _ _) ?_
  rw [show Store.node s root = _ from hroot]
  refine Returns.ofBind (rfl : Returns get _ _ _) ?_
  dsimp only
  rw [hdepth]
  refine hpart.within.ofBind ?_
  simp [Returns, Pure.pure, EStateM.pure]

/-- The text of a program that returns an expression. -/
theorem returns_text (hr : IsReturn s root i) (he : Spells s i e ids) (hd : ids.Nodup) :
    Returns (Lua.text root) ⟨s, ()⟩ ("return " ++ e.spelling ++ "\n", none) ⟨s, ()⟩ := by
  refine (returns_commands hr he hd).ofBind ?_
  obtain ⟨fresh, hrender⟩ := renderFrom_texts 
  have : render (.start .ret :: ("return " :: e.pieces).map Command.text ++ [.finish .ret]) =
      ("return " ++ e.spelling ++ "\n", none) := by
    rw [render, List.cons_append, renderFrom, hrender]
    simp only [renderFrom, nextSignificant, gapAfter, Expr.spelling, Expr.chars, List.flatMap_cons,
      String.ofList_append, String.ofList_toList, String.empty_append]
  rw [this]
  rfl

end

end LuaLift.Proofs
