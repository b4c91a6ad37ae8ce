import LuaLift.Proofs.Nesting
import LuaLift.Proofs.Sharing

/-! # What can be written

Inside a statement every node adds nested commands and leaves the frames of the writer as they
are (`Goes`). Writing a method call takes the first argument off its list, so lists get shorter
on the way (`Trimmed`), also those that stand in several places. -/
namespace LuaLift.Proofs
open Tree Pass Lua

/-! ## What the writer relies on -/

/-- Keys that are written as bare names. -/
def isNameNode : Node → Bool
  | .constant .text (.text t) => isName t
  | _ => false

/-- What a node of a valid tree needs to have a spelling: texts hold texts, array items are
array records, and the keys of global variables are names. -/
def isSpellable (s : Store) : Node → Bool
  | .constant .text (.text _) => true
  | .constant .text _ => false
  | .table array _ => (s.node array).items.all fun x => isArrayRecordNode (s.node x)
  | .element table key => !isBuiltin (s.node table) || isNameNode (s.node key)
  | _ => true

/-- Nodes that are written inside a statement. -/
def isInline : Node → Bool
  | .call .. => true
  | n => isStructured n && !n.isStatement

/-- The parts of a node whose items the writer looks at. -/
def listParts : Node → List NodeId
  | .assignment _ es ds => [es, ds]
  | .call _ as => [as]
  | .ifElse _ _ _ e => [e]
  | _ => []

structure Writable (s : Store) (i : NodeId) : Prop where
  present : i ≠ .absent
  structured : isStructured (s.node i) = true
  spellable : isSpellable s (s.node i) = true
  sign : ∀ op l r, s.node i = .binary op l r → binarySign op ≠ none
  statements : ∀ xs, s.node i = .list .statements xs → ∀ c ∈ xs, (s.node c).isStatement = true
  parts : (s.node i).isList .statements = false →
    ∀ c ∈ (s.node i).children, isInline (s.node c) = true
  lists : ∀ c ∈ listParts (s.node i), isListNode (s.node c) = true
  records : ∀ a r, s.node i = .table a r → ∀ c ∈ [a, r], (s.node c).isList .records = true

/-- A tree of at most `k` levels, of nodes that can be written. -/
def WritableTree (s : Store) : Nat → NodeId → Prop
  | 0, _ => False
  | k + 1, i => Writable s i ∧ ∀ c ∈ (s.node i).children, WritableTree s k c

variable {s t : Store} {i : NodeId} {k : Nat} {α β : Type}

theorem WritableTree.writable (h : WritableTree s k i) : Writable s i := by
  cases k with
  | zero => exact h.elim
  | succ k => exact h.1

theorem WritableTree.succ (h : WritableTree s k i) : WritableTree s (k + 1) i := by
  induction k generalizing i with
  | zero => exact h.elim
  | succ k ih => exact ⟨h.1, fun c hc => ih (h.2 c hc)⟩

variable {xs : List NodeId} {kind : ListKind} {n : Node} {c r key table : NodeId}
  {inner : NodeId → Write Unit} {w w' : Work Draft} {post : Work Draft → Prop} {p : Write α} {f : α → Write β}

theorem WritableTree.below (h : WritableTree s k i) (hc : c ∈ (s.node i).children) :
    WritableTree s (k - 1) c := by
  cases k with
  | zero => exact h.elim
  | succ k => exact h.2 c hc

theorem WritableTree.child (h : WritableTree s k i) (hc : c ∈ (s.node i).children) : WritableTree s k c := by
  cases k with
  | zero => exact h.elim
  | succ k => exact (h.2 c hc).succ

/-! ## Lists that get shorter -/

/-- A node as it is found once some lists have lost items at their front. -/
def Seen (s : Store) (i : NodeId) (n : Node) : Prop :=
  n = s.node i ∨ ∃ kind xs m, s.node i = .list kind xs ∧ n = .list kind (xs.drop m)

def Trimmed (s t : Store) : Prop := ∀ i, Seen s i (t.node i)

theorem Trimmed.refl (s : Store) : Trimmed s s := fun _ => .inl rfl

theorem Seen.other (h : Seen s i n) (hi : isListNode (s.node i) = false) : n = s.node i := by
  cases h with
  | inl h => exact h
  | inr h =>
    obtain ⟨kind, xs, m, hlist, -⟩ := h
    rw [hlist] at hi
    cases hi

theorem Seen.node (h : Seen s i n) (hn : isListNode n = false) : s.node i = n := by
  cases h with
  | inl h => exact h.symm
  | inr h =>
    obtain ⟨kind, xs, m, -, rfl⟩ := h
    cases hn

theorem Seen.list (h : Seen s i n) (hi : s.node i = .list kind xs) : ∃ m, n = .list kind (xs.drop m) := by
  cases h with
  | inl h => exact ⟨0, h.trans hi⟩
  | inr h =>
    obtain ⟨kind', xs', m, hlist, hn⟩ := h
    rw [hi] at hlist
    cases hlist
    exact ⟨m, hn⟩

/-- What does not look at the items of lists is the same for a node as it is found. -/
theorem Seen.same (h : Seen s i n) {f : Node → α} (hf : ∀ kind xs ys, f (.list kind xs) = f (.list kind ys)) :
    f n = f (s.node i) := by
  cases h with
  | inl h => rw [h]
  | inr h =>
    obtain ⟨kind, xs, m, hlist, rfl⟩ := h
    rw [hlist]
    exact hf ..

theorem Trimmed.setNode (h : Trimmed s t) (hi : t.node i = .list kind xs) :
    Trimmed s (t.setNode i (.list kind (xs.drop 1))) := by
  intro j
  by_cases hj : j = i
  · subst hj
    rw [node_setNode_self (inside_of_node (by rw [hi]; simp))]
    cases h j with
    | inl hnode =>
      exact .inr ⟨kind, xs, 1, hnode.symm.trans hi, rfl⟩
    | inr hnode =>
      obtain ⟨kind', ys, m, hlist, hnode⟩ := hnode
      rw [hi] at hnode
      cases hnode
      exact .inr ⟨kind, ys, m + 1, hlist, by rw [List.drop_drop]⟩
  · rw [node_setNode_of_ne hj]
    exact h j

/-! ## Actions of the writer -/

/-- An action that changes nothing. -/
def Looks (s : Store) (Q : α → Prop) (p : Write α) : Prop :=
  ∀ w, Trimmed s w.store → ∃ a, Returns p w a w ∧ Q a

/-- What is added inside a statement. -/
structure Adds (s : Store) (w w' : Work Draft) : Prop where
  trimmed : Trimmed s w'.store
  frames : w'.own.frames = w.own.frames
  commands : ∃ cs, w'.own.commands.toList = w.own.commands.toList ++ cs ∧ Nested true cs

/-- An action that succeeds with frames of a kind, and adds to a statement. -/
def Goes (s : Store) (F : List Lua.Frame → Prop) (Q : α → Prop) (p : Write α) : Prop :=
  ∀ w, Trimmed s w.store → F w.own.frames → Succeeds p w fun a w' => Adds s w w' ∧ Q a

abbrev GoesOn (s : Store) (F : List Lua.Frame → Prop) (p : Write Unit) : Prop := Goes s F (fun _ => True) p

/-- An action that adds to a statement and ends with a step of its own, which `P` describes. -/
def Closes (s : Store) (F : List Lua.Frame → Prop) (P : Work Draft → Work Draft → Prop)
    (p : Write Unit) : Prop :=
  ∀ w, Trimmed s w.store → F w.own.frames → Succeeds p w fun _ w' => ∃ v, Adds s w v ∧ P v w'

section
variable {F F' : List Lua.Frame → Prop} {Q : α → Prop} {R : β → Prop} {P : Work Draft → Work Draft → Prop}

theorem Adds.refl (h : Trimmed s w.store) : Adds s w w :=
  ⟨h, rfl, [], by simp, .nil⟩

theorem Adds.trans {w'' : Work Draft} (h : Adds s w w') (h' : Adds s w' w'') : Adds s w w'' := by
  obtain ⟨cs, hcs, hn⟩ := h.commands
  obtain ⟨cs', hcs', hn'⟩ := h'.commands
  refine ⟨h'.trimmed, h'.frames.trans h.frames, cs ++ cs', ?_, hn.append hn'⟩
  rw [hcs', hcs, List.append_assoc]

theorem Looks.bind (h : Looks s Q p) (h' : ∀ a, Q a → Looks s R (f a)) : Looks s R (p >>= f) := by
  intro w hw
  obtain ⟨a, hp, ha⟩ := h w hw
  obtain ⟨b, hf, hb⟩ := h' a ha w hw
  exact ⟨b, hp.ofBind hf, hb⟩

theorem Looks.goes (h : Looks s Q p) : Goes s F Q p := by
  intro w hw _
  obtain ⟨a, hp, ha⟩ := h w hw
  exact hp.succeeds ⟨.refl hw, ha⟩

theorem Goes.bind (h : Goes s F Q p) (h' : ∀ a, Q a → Goes s F R (f a)) : Goes s F R (p >>= f) := by
  intro w hw hF
  refine (h w hw hF).next fun a w' ha => ?_
  refine (h' a ha.2 w' ha.1.trimmed (ha.1.frames ▸ hF)).mono fun b w'' hb => ?_
  exact ⟨ha.1.trans hb.1, hb.2⟩

theorem Goes.closes {f : α → Write Unit} (h : Goes s F Q p) (h' : ∀ a, Q a → Closes s F P (f a)) :
    Closes s F P (p >>= f) := by
  intro w hw hF
  refine (h w hw hF).next fun a w' ha => ?_
  refine (h' a ha.2 w' ha.1.trimmed (ha.1.frames ▸ hF)).mono ?_
  rintro _ w'' ⟨v, hv, hP⟩
  exact ⟨v, ha.1.trans hv, hP⟩

theorem Goes.seq {p : Write Unit} {q : Write β} (h : GoesOn s F p) (h' : Goes s F R q) :
    Goes s F R (do p; q) := h.bind fun _ _ => h'

theorem Goes.closing {p q : Write Unit} (h : GoesOn s F p) (h' : Closes s F P q) :
    Closes s F P (do p; q) := h.closes fun _ _ => h'

theorem Closes.goesOn {p : Write Unit} (h : Closes s F Eq p) : GoesOn s F p := by
  intro w hw hF
  refine (h w hw hF).mono ?_
  rintro _ _ ⟨v, hv, rfl⟩
  exact ⟨hv, trivial⟩

theorem Goes.weaken (h : Goes s F Q p) (hF : ∀ frames, F' frames → F frames) :
    Goes s F' Q p := fun w hw hF' => h w hw (hF _ hF')

theorem looks_pure {a : α} (h : Q a) : Looks s Q (pure a) := fun _ _ => ⟨a, rfl, h⟩

theorem looks_node (i : NodeId) : Looks s (Seen s i) (node i) := fun _ hw => ⟨_, rfl, hw i⟩

theorem looks_require {holds : Bool} {rule : String} (h : holds = true) :
    Looks s (fun _ => True) (require holds rule) := fun _ _ => ⟨(), .ofRequire h, trivial⟩

theorem looks_items (hi : isListNode (s.node i) = true) :
    Looks s (fun xs => ∃ m, xs = (s.node i).items.drop m) (items i) := by
  cases hn : s.node i with
  | list kind xs =>
    refine (looks_node i).bind fun n hseen => ?_
    obtain ⟨m, rfl⟩ := hseen.list hn
    exact looks_pure ⟨m, rfl⟩
  | _ =>
    rw [hn] at hi
    cases hi

theorem looks_isNameKey (h : isSpellable s n = true) : Looks s (fun b => b = isNameNode n) (isNameKey n) := by
  unfold isNameKey
  split
  · exact looks_pure rfl
  · rename_i v hne
    cases v with
    | text t => exact absurd rfl (hne t)
    | _ => cases h
  · rename_i hne hne'
    refine looks_pure ?_
    unfold isNameNode
    split
    · exact absurd rfl (hne _)
    · rfl

theorem looks_isGlobal (table key : NodeId) :
    Looks s (fun b => b = isBuiltin (s.node table)) (isGlobal (.element table key)) :=
  (looks_node table).bind fun _ hseen => looks_pure (hseen.same fun _ _ _ => rfl)

theorem looks_key (hseen : Seen s key n) (h : isSpellable s (s.node key) = true) :
    Looks s (fun b => b = isNameNode (s.node key)) (isNameKey n) := by
  rw [← hseen.same (f := isNameNode) fun _ _ _ => rfl]
  refine looks_isNameKey ?_
  rw [hseen.same (f := isSpellable s) fun _ _ _ => rfl]
  exact h

theorem looks_recordValue {v : NodeId} (hi : s.node i = .arrayRecord v) :
    Looks s (fun x => x = v) (recordValue i) := by
  refine (looks_node i).bind fun n hn => ?_
  obtain rfl : n = .arrayRecord v := (hn.other (by rw [hi]; rfl)).trans hi
  exact looks_pure rfl

theorem goesOn_pure : GoesOn s F (pure ()) := (looks_pure trivial).goes

theorem closes_pure : Closes s F Eq (pure ()) := fun w hw _ => .pure ⟨w, .refl hw, rfl⟩

theorem goesOn_emit {c : Command} (h : Nested true [c]) : GoesOn s F (emit c) := by
  intro w hw _
  refine ⟨(), _, rfl, ⟨hw, rfl, [c], ?_, h⟩, trivial⟩
  simp

theorem goesOn_put (t : String) : GoesOn s F (put t) := goesOn_emit (.text .nil)

theorem goesOn_endLine : GoesOn s F endLine := goesOn_emit (.endLine .nil)

theorem goesOn_leaveOut (i : NodeId) : GoesOn s F (leaveOut i) := fun _ hw _ =>
  ⟨(), _, rfl, ⟨hw, rfl, [], by simp, .nil⟩, trivial⟩

theorem goesOn_forM {f : NodeId → Write Unit} (h : ∀ x ∈ xs, GoesOn s F (f x)) : GoesOn s F (xs.forM f) := by
  induction xs with
  | nil => exact goesOn_pure
  | cons x xs ih =>
    exact (h x List.mem_cons_self).seq <| ih fun y hy => h y (List.mem_cons_of_mem _ hy)

/-! ## Parts -/

/-- A state of the writer with another record of parts. -/
def withDone (w : Work Draft) (d : List NodeId) : Work Draft := { w with own := { w.own with done := d } }

theorem succeeds_fresh {p : Write Unit} (hdone : ∀ v d, post v → post (withDone v d))
    (h : Succeeds p (withDone w []) fun _ v => post v) : Succeeds (fresh p) w fun _ v => post v := by
  obtain ⟨u, v, hp, hv⟩ := h
  refine ⟨(), withDone v w.own.done, ?_, hdone v _ hv⟩
  change EStateM.bind p _ (withDone w []) = _
  simp only [EStateM.bind, show p (withDone w []) = .ok u v from hp]
  rfl

theorem succeeds_part (hi : i ≠ .absent) (hdone : ∀ v d, post v → post (withDone v d)) (hskip : post w)
    (h : Succeeds (inner i) (withDone w []) fun _ v => post v) :
    Succeeds (part inner i) w fun _ v => post v := by
  unfold Succeeds Returns
  rw [part_eq hi]
  by_cases hmem : w.own.done.contains i = true
  · rw [if_pos hmem]
    exact ⟨(), w, rfl, hskip⟩
  · rw [if_neg hmem]
    have hfresh : Succeeds (fresh (inner i)) (withDone w (i :: w.own.done)) fun _ v => post v :=
      succeeds_fresh hdone h
    exact Succeeds.bind ⟨(), _, rfl, hfresh⟩

theorem Adds.withDone (h : Adds s w w') (d : List NodeId) :
    Adds s w (withDone w' d) := ⟨h.trimmed, h.frames, h.commands⟩

theorem goesOn_fresh {p : Write Unit} (h : GoesOn s F p) : GoesOn s F (fresh p) := by
  intro w hw hF
  have hp := (h (withDone w []) hw hF).mono fun _ v hv =>
    (⟨hv.1.trimmed, hv.1.frames, hv.1.commands⟩ : Adds s w v)
  exact (succeeds_fresh (fun _ d hv => hv.withDone d) hp).mono fun _ _ hv => ⟨hv, trivial⟩

theorem goesOn_part (hi : i ≠ .absent) (h : GoesOn s F (inner i)) : GoesOn s F (part inner i) := by
  intro w hw hF
  have hp := (h (withDone w []) hw hF).mono fun _ v hv =>
    (⟨hv.1.trimmed, hv.1.frames, hv.1.commands⟩ : Adds s w v)
  exact (succeeds_part hi (fun _ d hv => hv.withDone d) (.refl hw) hp).mono fun _ _ hv => ⟨hv, trivial⟩

/-! ## Blocks inside a statement -/

/-- The block that was opened last is closed and its statement goes on. -/
def ClosedBlock (s : Store) (v w : Work Draft) : Prop :=
  Trimmed s w.store ∧ w.own.frames = v.own.frames ∧ ∃ cs,
    w.own.commands.toList = v.own.commands.toList ++ .closeBlock :: cs ∧ Nested true cs

theorem closes_closeBlock {f : Unit → Write Unit} (h : GoesOn s F (f ())) :
    Closes s F (ClosedBlock s) (emit .closeBlock >>= f) := by
  intro w hw hF
  let closed : Work Draft := { w with own := { w.own with commands := w.own.commands.push .closeBlock } }
  have hemit : Returns (emit .closeBlock) w () closed := rfl
  have hrest := (h closed hw hF).mono fun _ w' (hadds : Adds s closed w' ∧ True) =>
    show ∃ v, Adds s w v ∧ ClosedBlock s v w' by
      obtain ⟨cs, hcs, hnested⟩ := hadds.1.commands
      refine ⟨w, .refl hw, hadds.1.trimmed, hadds.1.frames, cs, ?_, hnested⟩
      rw [hcs]
      simp [closed]
  exact Succeeds.bind (hemit.succeeds hrest)

theorem goesOn_openBlock {f : Unit → Write Unit} (h : Closes s F (ClosedBlock s) (f ())) :
    GoesOn s F (emit .openBlock >>= f) := by
  intro w hw hF
  let opened : Work Draft := { w with own := { w.own with commands := w.own.commands.push .openBlock } }
  have hemit : Returns (emit .openBlock) w () opened := rfl
  refine Succeeds.bind (hemit.succeeds ((h opened hw hF).mono ?_))
  rintro _ w' ⟨v, hadds, htrim, hframes, cs, hcs, hrest⟩
  obtain ⟨body, hbody, hnested⟩ := hadds.commands
  refine ⟨⟨htrim, hframes.trans hadds.frames, .openBlock :: body ++ .closeBlock :: cs, ?_,
    .block hnested hrest⟩, trivial⟩
  rw [hcs, hbody]
  simp [opened]

/-! ## Nodes inside a statement -/

variable {inner : NodeId → Write Unit}

theorem goesOn_parenthesized {p : Write Unit} (wanted : Bool) (h : GoesOn s F p) :
    GoesOn s F (parenthesized wanted p) := by
  cases wanted with
  | true => exact (goesOn_put _).seq <| h.seq <| goesOn_put _
  | false => exact h.seq <| goesOn_pure

theorem goesOn_separated {separator : Write Unit} (hseparator : GoesOn s F separator)
    (h : ∀ x ∈ xs, GoesOn s F (part inner x)) : GoesOn s F (separated inner separator xs) := by
  induction xs with
  | nil => exact goesOn_pure
  | cons x xs ih =>
    have hx := h x List.mem_cons_self
    have hxs := ih fun y hy => h y (List.mem_cons_of_mem _ hy)
    cases xs with
    | nil => exact hx
    | cons y ys => exact hx.seq <| hseparator.seq <| hxs

theorem goesOn_writeRecords (h : ∀ x ∈ xs, GoesOn s F (part inner x)) :
    GoesOn s F (writeRecords inner xs) := by
  have hseparator : GoesOn s F (do put ","; endLine) := (goesOn_put _).seq <| goesOn_endLine
  refine (goesOn_separated hseparator h).seq ?_
  cases xs with
  | nil => exact goesOn_pure
  | cons x xs => exact goesOn_endLine

theorem goesOn_writeTable {a : NodeId} (ha : isListNode (s.node a) = true)
    (hr : isListNode (s.node r) = true) (harray : ∀ x ∈ (s.node a).items, GoesOn s F (part inner x))
    (hrecords : ∀ x ∈ (s.node r).items, GoesOn s F (part inner x))
    (hvalue : ∀ x ∈ (s.node a).items, ∃ v, s.node x = .arrayRecord v ∧ GoesOn s F (part inner v)) :
    GoesOn s F (writeTable inner a r) := by
  have hend : GoesOn s F (do leaveOut a; leaveOut r; put "\x7d") :=
    (goesOn_leaveOut a).seq <| (goesOn_leaveOut r).seq <| goesOn_put _
  refine (goesOn_put _).seq <| (looks_items ha).goes.bind ?_
  rintro xs ⟨m, rfl⟩
  refine (looks_items hr).goes.bind ?_
  rintro ys ⟨m', rfl⟩
  have hys : ∀ y ∈ (s.node r).items.drop m', GoesOn s F (part inner y) :=
    fun y hy => hrecords y (List.mem_of_mem_drop hy)
  generalize hxs : (s.node a).items.drop m = xs
  generalize (s.node r).items.drop m' = ys at hys
  have hmem : ∀ x ∈ xs, x ∈ (s.node a).items := fun x hx => List.mem_of_mem_drop (hxs ▸ hx)
  cases hempty : xs.isEmpty && ys.isEmpty with
  | true => exact hend
  | false =>
    refine goesOn_endLine.seq <| goesOn_openBlock ?_
    cases xs with
    | nil => exact (goesOn_fresh (goesOn_writeRecords hys)).closing <| closes_closeBlock hend
    | cons zeroth others =>
      obtain ⟨first, hzeroth, hfirst⟩ := hvalue zeroth (hmem zeroth List.mem_cons_self)
      have hothers : ∀ x ∈ others ++ ys, GoesOn s F (part inner x) := by
        intro x hx
        cases List.mem_append.mp hx with
        | inl hx => exact harray x (hmem x (List.mem_cons_of_mem _ hx))
        | inr hx => exact hys x hx
      refine (looks_recordValue hzeroth).goes.closes ?_
      rintro first rfl
      refine (looks_node first).goes.closes fun v _ => ?_
      split
      · exact (goesOn_fresh (goesOn_writeRecords hothers)).closing <| closes_closeBlock hend
      · refine Goes.closes (goesOn_fresh ?_) fun _ _ => closes_closeBlock hend
        refine (goesOn_put _).seq <| (goesOn_fresh hfirst).seq ?_
        split
        · exact (goesOn_writeRecords hothers).seq <| goesOn_endLine
        · exact (goesOn_put _).seq <| goesOn_endLine.seq <| (goesOn_writeRecords hothers).seq <| goesOn_pure

theorem goesOn_writeTableRecord {value : NodeId} (hspell : isSpellable s (s.node key) = true)
    (hkey : GoesOn s F (part inner key)) (hvalue : GoesOn s F (part inner value)) :
    GoesOn s F (writeTableRecord inner key value) := by
  refine (looks_node key).goes.bind fun n hn => (looks_key hn hspell).goes.bind fun bare _ => ?_
  split
  · exact (goesOn_put _).seq <| (goesOn_leaveOut key).seq <| (goesOn_put _).seq <| hvalue
  · exact (goesOn_put _).seq <| hkey.seq <| (goesOn_put _).seq <| hvalue

theorem goesOn_writeBinary {op : BinaryOp} {l : NodeId} (hop : binarySign op ≠ none)
    (hl : GoesOn s F (part inner l)) (hr : GoesOn s F (part inner r)) :
    GoesOn s F (writeBinary inner op l r) := by
  refine (looks_node l).goes.bind fun n _ => (goesOn_parenthesized _ hl).seq ?_
  split
  · refine (goesOn_put _).seq <| (looks_node r).goes.bind fun n _ => ?_
    exact goesOn_parenthesized _ hr
  · exact absurd ‹_› hop

theorem goesOn_writeUnary {op : UnaryOp} {x : NodeId} (hx : GoesOn s F (part inner x)) :
    GoesOn s F (writeUnary inner op x) := by
  have hoperand : ∀ wanted : Node → Bool, GoesOn s F (do parenthesized (wanted (← node x)) (part inner x)) :=
    fun _ => (looks_node x).goes.bind fun _ _ => goesOn_parenthesized _ hx
  unfold writeUnary
  dsimp only
  split
  · exact hoperand _
  · exact (goesOn_put _).seq <| hoperand _

theorem goesOn_writeGlobal (hspell : isSpellable s (s.node key) = true)
    (hglobal : isBuiltin (s.node table) = true) (hname : isNameNode (s.node key) = true) :
    GoesOn s F (writeElement inner (.element table key) table key) := by
  refine (looks_node key).goes.bind fun n hn => (looks_key hn hspell).goes.bind ?_
  rintro _ rfl
  refine (looks_isGlobal table key).goes.bind ?_
  rintro _ rfl
  rw [if_pos hglobal]
  refine (looks_require hname).goes.seq <| (goesOn_leaveOut table).seq <| (goesOn_leaveOut key).seq ?_
  exact goesOn_put _

theorem goesOn_writeElement (hspell : isSpellable s (s.node key) = true)
    (hself : isSpellable s (.element table key) = true) (htable : GoesOn s F (part inner table))
    (hkey : GoesOn s F (part inner key)) :
    GoesOn s F (writeElement inner (.element table key) table key) := by
  cases hglobal : isBuiltin (s.node table) with
  | true => exact goesOn_writeGlobal hspell hglobal (by simpa [isSpellable, hglobal] using hself)
  | false =>
    refine (looks_node key).goes.bind fun n hn => (looks_key hn hspell).goes.bind fun bare _ => ?_
    refine (looks_isGlobal table key).goes.bind ?_
    rintro _ rfl
    rw [if_neg (by simp [hglobal])]
    have hrest : ∀ isConstructor : Bool, GoesOn s F (
        if !isConstructor && bare then do
          part inner table
          put "."
          put (keyText n)
          leaveOut key
        else do
          parenthesized isConstructor (part inner table)
          put "["
          part inner key
          put "]") := by
      intro isConstructor
      split
      · exact htable.seq <| (goesOn_put _).seq <| (goesOn_put _).seq <| goesOn_leaveOut key
      · exact (goesOn_parenthesized _ htable).seq <| (goesOn_put _).seq <| hkey.seq <| goesOn_put _
    exact (looks_node table).goes.bind fun _ _ => hrest _

theorem goesOn_writeIdentifier (x : Identifier) : GoesOn s F (writeIdentifier x) := by
  unfold writeIdentifier
  split
  · exact goesOn_put _
  · exact goesOn_put _

theorem goesOn_writeConstant {kind : ConstantKind} {v : Literal}
    (h : isSpellable s (.constant kind v) = true) : GoesOn s F (writeConstant kind v) := by
  unfold writeConstant
  split
  · exact goesOn_put _
  · rename_i hne
    cases v with
    | text t => exact absurd rfl (hne t)
    | _ => cases h
  · exact goesOn_put _

theorem goesOn_writeElseIf {b : NodeId} (hc : GoesOn s F (part inner c)) (hb : GoesOn s F (part inner b)) :
    GoesOn s F (writeElseIf inner c b) := by
  exact (goesOn_put _).seq <| hc.seq <| (goesOn_put _).seq <| goesOn_endLine.seq <| hb

/-! ## Calls -/

theorem looks_method? {f : NodeId} {args : List NodeId} (hseen : Seen s f n)
    (hkey : ∀ t x, s.node f = .element t x → isSpellable s (s.node x) = true) :
    Looks s (fun m => ∀ t k, m = some (t, k) → ∃ x, s.node f = .element t x) (method? n args) := by
  unfold method?
  split
  · rename_i t x first rest
    have hf : s.node f = .element t x := hseen.node rfl
    refine (looks_node x).bind fun k hk => (looks_key hk (hkey t x hf)).bind fun bare _ => ?_
    split
    · refine looks_pure fun t' k' h => ?_
      split at h
      · cases h
        exact ⟨x, hf⟩
      · cases h
    · exact looks_pure fun _ _ h => nomatch h
  · exact looks_pure fun _ _ h => nomatch h

theorem goesOn_dropFirst (hi : isListNode (s.node i) = true) :
    GoesOn s F (do setItems i ((← items i).drop 1)) := by
  intro w hw _
  obtain ⟨kind, xs, hnode⟩ : ∃ kind xs, w.store.node i = .list kind xs := by
    cases hn : s.node i with
    | list kind xs =>
      obtain ⟨m, hm⟩ := (hw i).list hn
      exact ⟨kind, _, hm⟩
    | _ =>
      rw [hn] at hi
      cases hi
  refine Succeeds.bind (succeeds_node ?_).bind
  rw [hnode]
  refine .pure (succeeds_node ?_).bind
  rw [hnode]
  exact succeeds_modifyStore ⟨⟨hw.setNode hnode, rfl, [], by simp, .nil⟩, trivial⟩

/-- A call after it is known whether it is a statement. -/
def callWith (inner : NodeId → Write Unit) (isStatement : Bool) (function arguments : NodeId) :
    Write Unit := do
  let args ← items arguments
  match ← method? (← node function) args with
  | some (table, key) =>
    part inner table
    put ":"
    put (keyText key)
    leaveOut function
    setItems arguments ((← items arguments).drop 1)
  | none => part inner function
  put "("
  part inner arguments
  put ")"
  if isStatement then endStatement .call

theorem writeCall_eq (function arguments : NodeId) : writeCall inner function arguments = (do
    let isStatement := (← frame).current == none
    if isStatement then startStatement .call
    callWith inner isStatement function arguments) := rfl

theorem closes_callWith {isStatement : Bool} {f as : NodeId} (has : isListNode (s.node as) = true)
    (hkey : ∀ t x, s.node f = .element t x → isSpellable s (s.node x) = true)
    (htable : ∀ t x, s.node f = .element t x → GoesOn s F (part inner t))
    (hf : GoesOn s F (part inner f)) (hargs : GoesOn s F (part inner as))
    (hend : Closes s F P (if isStatement then endStatement .call else pure ())) :
    Closes s F P (callWith inner isStatement f as) := by
  have hrest : Closes s F P (do
      put "("
      part inner as
      put ")"
      if isStatement then endStatement .call) :=
    (goesOn_put _).closing <| hargs.closing <| (goesOn_put _).closing <| hend
  refine (looks_items has).goes.closes fun args _ => (looks_node f).goes.closes fun n hn => ?_
  refine (looks_method? hn hkey).goes.closes fun m hm => ?_
  cases m with
  | none => exact hf.closing <| hrest
  | some m =>
    obtain ⟨t, k⟩ := m
    obtain ⟨x, hx⟩ := hm t k rfl
    refine (htable t x hx).closing <| (goesOn_put _).closing ?_
    refine (goesOn_put _).closing <| (goesOn_leaveOut f).closing ?_
    exact (bind_assoc (m := Write) ..) ▸ (goesOn_dropFirst has).closing <| hrest

end

end LuaLift.Proofs
