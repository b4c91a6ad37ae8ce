import Mathlib.Data.List.Forall2
import Mathlib.Data.Option.Basic
import LuaLift.Lua.Writer

/-! # Trees that are written alike

The writer looks at what a node is, and at which parts of one node are the same node: a part
that stands in two places of a node is written once. `Twin s s' k i j` says that two trees, of
at most `k` levels, are alike in these respects. The writer then goes in step on both: it
issues the same commands, or fails for the same reason. -/
namespace LuaLift.Proofs
open Tree Pass Lua

/-! ## Pairs of trees -/

/-- Pairs of parts that stand in the same places of two nodes. -/
abbrev Pairs := List (NodeId × NodeId)

/-- Two parts are one node exactly if their counterparts are. -/
def Aligned (ps : Pairs) : Prop := ∀ p ∈ ps, ∀ q ∈ ps, p.1 = q.1 ↔ p.2 = q.2

/-- Nodes of a program whose control flow is structured. -/
def isStructured : Node → Bool
  | .absent | .block _ | .jump .. | .test .. | .iterate .. | .count .. | .stop _ => false
  | _ => true

def isListNode : Node → Bool
  | .list .. => true
  | _ => false

/-- The records of a constructor that are written as such: all but the first array item. -/
def tableParts (s : Store) (array records : NodeId) : List NodeId :=
  (s.node array).items.drop 1 ++ (s.node records).items

/-- Calls of an element of a table with that table as the first argument. -/
def isMethodCall (s : Store) : Node → Bool
  | .call f as =>
    match s.node f, (s.node as).items with
    | .element table _, first :: _ => table == first
    | _, _ => false
  | _ => false

/-- Two nodes are alike, given which parts are. -/
structure Mirror (s s' : Store) (R : NodeId → NodeId → Prop) (i j : NodeId) : Prop where
  present : i ≠ .absent
  present' : j ≠ .absent
  structured : isStructured (s.node i) = true
  links : ∃ fs xs, List.Forall₂ R (s.node i).fields fs ∧ List.Forall₂ R (s.node i).items xs ∧
    s'.node j = (s.node i).rebuild fs xs
  parts : Aligned ((s.node i).children.zip (s'.node j).children)
  records : ∀ a r a' r', s.node i = .table a r → s'.node j = .table a' r' →
    Aligned ((tableParts s a r).zip (tableParts s' a' r'))
  lists : ∀ a b c, s.node i = .function a b c →
    isListNode (s.node a) = true ∧ isListNode (s.node b) = true
  calls : isMethodCall s (s.node i) = false ∧ isMethodCall s' (s'.node j) = false

/-- Trees of at most `k` levels that are alike. -/
def Twin (s s' : Store) : Nat → NodeId → NodeId → Prop
  | 0, _, _ => False
  | k + 1, i, j => Mirror s s' (Twin s s' k) i j

variable {s s' : Store} {k : Nat} {i j : NodeId}

variable {fs : List NodeId} {a b : NodeId} {R : NodeId → NodeId → Prop} {inner : NodeId → Write Unit}
  {x y : Write Unit}

theorem Mirror.mono {R' : NodeId → NodeId → Prop} (h : Mirror s s' R i j) (hR : ∀ a b, R a b → R' a b) :
    Mirror s s' R' i j := by
  obtain ⟨fs, xs, hf, hx, hn⟩ := h.links
  exact { h with links := ⟨fs, xs, hf.imp hR, hx.imp hR, hn⟩ }

theorem Twin.succ (h : Twin s s' k i j) : Twin s s' (k + 1) i j := by
  induction k generalizing i j with
  | zero => exact h.elim
  | succ k ih => exact Mirror.mono h fun a b => ih

theorem Twin.mono {k' : Nat} (h : Twin s s' k i j) (hk : k ≤ k') : Twin s s' k' i j := by
  induction hk with
  | refl => exact h
  | step _ ih => exact ih.succ

/-! ## Two runs -/

/-- Names of functions: variables, or elements of the table of globals, that are alike. -/
def SameName (s s' : Store) (a b : NodeId) : Prop :=
  a ≠ .absent ∧ b ≠ .absent ∧
    ((∃ x, s.node a = .identifier x ∧ s'.node b = .identifier x) ∨
      ∃ t k t' k' fs xs, s.node a = .element t k ∧ s'.node b = .element t' k' ∧
        isBuiltin (s.node t) = true ∧ isBuiltin (s'.node t') = true ∧
        s'.node k' = (s.node k).rebuild fs xs)

structure FrameAlike (s s' : Store) (f f' : Frame) : Prop where
  current : f.current = f'.current
  functionLocal : f.functionLocal = f'.functionLocal
  functionName : Option.Rel (SameName s s') f.functionName f'.functionName

/-- The states of two writers that went in step. Of the parts of the current nodes, `ps`, those
that are written or left out are in the same places. -/
structure Alike (s s' : Store) (ps : Pairs) (w w' : Work Draft) : Prop where
  store : w.store = s
  store' : w'.store = s'
  commands : w.own.commands = w'.own.commands
  done : ∀ p ∈ ps, p.1 ∈ w.own.done ↔ p.2 ∈ w'.own.done
  frames : List.Forall₂ (FrameAlike s s') w.own.frames w'.own.frames

variable {α β γ δ : Type} {ps : Pairs}

/-- Two writers fail for the same reason, or succeed with related results. -/
def SameOutcome (s s' : Store) (ps : Pairs) (Q : α → β → Prop) (x : Write α) (y : Write β)
    (w w' : Work Draft) : Prop :=
  (∃ a b v v', x w = .ok a v ∧ y w' = .ok b v' ∧ Alike s s' ps v v' ∧ Q a b) ∨
    ∃ e v v', x w = .error e v ∧ y w' = .error e v'

/-- Two writers go in step. -/
def InStep (s s' : Store) (ps : Pairs) (Q : α → β → Prop) (x : Write α) (y : Write β) : Prop :=
  ∀ w w', Alike s s' ps w w' → SameOutcome s s' ps Q x y w w'

/-- Two writers of nodes go in step. -/
def FreshInStep (s s' : Store) (x y : Write Unit) : Prop :=
  ∀ w w', Alike s s' [] w w' → w.own.done = [] → w'.own.done = [] →
    SameOutcome s s' [] (fun _ _ => True) x y w w'

abbrev Both (s s' : Store) (ps : Pairs) (x y : Write Unit) : Prop :=
  InStep s s' ps (fun _ _ => True) x y

section
variable {Q : α → β → Prop} {R : γ → δ → Prop} {x : Write α} {y : Write β}

theorem InStep.bind {f : α → Write γ} {g : β → Write δ} (h : InStep s s' ps Q x y)
    (h' : ∀ a b, Q a b → InStep s s' ps R (f a) (g b)) : InStep s s' ps R (x >>= f) (y >>= g) := by
  intro w w' hw
  obtain ⟨a, b, v, v', hx, hy, hv, hq⟩ | ⟨e, v, v', hx, hy⟩ := h w w' hw
  · have hf : (x >>= f) w = f a v := by
      change EStateM.bind x f w = _
      simp [EStateM.bind, hx]
    have hg : (y >>= g) w' = g b v' := by
      change EStateM.bind y g w' = _
      simp [EStateM.bind, hy]
    unfold SameOutcome
    rw [hf, hg]
    exact h' a b hq v v' hv
  · refine .inr ⟨e, v, v', ?_, ?_⟩
    · change EStateM.bind x f w = _
      simp [EStateM.bind, hx]
    · change EStateM.bind y g w' = _
      simp [EStateM.bind, hy]

theorem InStep.seq {x y : Write Unit} {x' : Write γ} {y' : Write δ} (h : Both s s' ps x y)
    (h' : InStep s s' ps R x' y') : InStep s s' ps R (do x; x') (do y; y') :=
  h.bind fun _ _ _ => h'

theorem InStep.fresh {x y : Write Unit} (h : Both s s' ps x y) : FreshInStep s s' x y := by
  intro w w' hw hdone hdone'
  obtain ⟨a, b, v, v', hx, hy, hv, -⟩ | hfail := h w w' { hw with done := by simp [hdone, hdone'] }
  · exact .inl ⟨a, b, v, v', hx, hy, { hv with done := by simp }, trivial⟩
  · exact .inr hfail

theorem inStep_pure {a : α} {b : β} (h : Q a b) : InStep s s' ps Q (pure a) (pure b) := by
  intro w w' hw
  exact .inl ⟨a, b, w, w', rfl, rfl, hw, h⟩

theorem inStep_throw (e : Fault) : InStep s s' ps Q (throw e) (throw e) := by
  intro w w' hw
  exact .inr ⟨e, w, w', rfl, rfl⟩

end

theorem both_pure : Both s s' ps (pure ()) (pure ()) := inStep_pure trivial

theorem both_emit (c : Command) : Both s s' ps (emit c) (emit c) := by
  intro w w' hw
  refine .inl ⟨(), (), _, _, rfl, rfl, ?_, trivial⟩
  exact { hw with commands := by simp [hw.commands] }

theorem both_put (t : String) : Both s s' ps (put t) (put t) := both_emit (.text t)

theorem both_endLine : Both s s' ps endLine endLine := both_emit .endLine

theorem both_require (holds : Bool) (rule : String) :
    Both s s' ps (require holds rule) (require holds rule) := by
  cases holds with
  | true => exact both_pure
  | false => exact inStep_throw _

theorem inStep_atNode {Q : α → β → Prop} {f : Node → Write α} {g : Node → Write β}
    (h : InStep s s' ps Q (f (s.node i)) (g (s'.node j))) :
    InStep s s' ps Q (node i >>= f) (node j >>= g) := by
  intro w w' hw
  have hrun := h w w' hw
  rw [← hw.store, ← hw.store'] at hrun
  rwa [← hw.store, ← hw.store']

theorem FrameAlike.default : FrameAlike s s' {} {} := ⟨rfl, rfl, .none⟩

theorem Alike.frame {w w' : Work Draft} (h : Alike s s' ps w w') :
    FrameAlike s s' (w.own.frames.headD {}) (w'.own.frames.headD {}) := by
  cases hf : w.own.frames with
  | nil =>
    have := h.frames
    rw [hf] at this
    rw [List.forall₂_nil_left_iff.mp this]
    exact .default
  | cons f fs =>
    have := h.frames
    rw [hf] at this
    obtain ⟨f', fs', hhead, -, heq⟩ := List.forall₂_cons_left_iff.mp this
    rw [heq]
    exact hhead

theorem inStep_frame : InStep s s' ps (FrameAlike s s') frame frame := by
  intro w w' hw
  exact .inl ⟨_, _, w, w', rfl, rfl, hw, hw.frame⟩

theorem both_modifyFrame {f g : Frame → Frame}
    (h : ∀ x y, FrameAlike s s' x y → FrameAlike s s' (f x) (g y)) :
    Both s s' ps (modifyFrame f) (modifyFrame g) := by
  intro w w' hw
  refine .inl ⟨(), (), _, _, rfl, rfl, { hw with frames := ?_ }, trivial⟩
  have hframes := hw.frames
  dsimp only
  revert hframes
  cases w.own.frames <;> cases w'.own.frames
  · intro _
    exact .cons (h _ _ .default) .nil
  · intro hframes
    cases hframes
  · intro hframes
    cases hframes
  · intro hframes
    cases hframes with
    | cons hhead htail => exact .cons (h _ _ hhead) htail

theorem both_startStatement (kind : StatementKind) :
    Both s s' ps (startStatement kind) (startStatement kind) := by
  refine inStep_frame.bind fun f f' hf => ?_
  rw [hf.current]
  refine (both_require _ _).seq <| (both_modifyFrame ?_).seq <| both_emit _
  intro x y h
  exact ⟨rfl, h.functionLocal, h.functionName⟩

theorem both_endStatement (kind : StatementKind) :
    Both s s' ps (endStatement kind) (endStatement kind) := by
  refine inStep_frame.bind fun f f' hf => ?_
  rw [hf.current]
  refine (both_require _ _).seq <| (both_modifyFrame ?_).seq <| both_emit _
  intro x y h
  exact ⟨rfl, h.functionLocal, h.functionName⟩

theorem inStep_own :
    InStep s s' ps (fun d d' => List.Forall₂ (FrameAlike s s') d.frames d'.frames) own own := by
  intro w w' hw
  exact .inl ⟨_, _, w, w', rfl, rfl, hw, hw.frames⟩

theorem both_modifyFrames {f g : List Frame → List Frame}
    (h : ∀ xs ys, List.Forall₂ (FrameAlike s s') xs ys → List.Forall₂ (FrameAlike s s') (f xs) (g ys)) :
    Both s s' ps (modifyOwn fun d => { d with frames := f d.frames })
      (modifyOwn fun d => { d with frames := g d.frames }) := by
  intro w w' hw
  exact .inl ⟨(), (), _, _, rfl, rfl, { hw with frames := h _ _ hw.frames }, trivial⟩

/-- Both look whether a key is a name, and give the same answer. -/
theorem inStep_atNameKey {n : Node} {Q : α → β → Prop} {f : Bool → Write α} {g : Bool → Write β}
    (h : ∀ bare, InStep s s' ps Q (f bare) (g bare)) :
    InStep s s' ps Q (isNameKey n >>= f) (isNameKey n >>= g) := by
  have hkey : InStep s s' ps (fun a b => a = b) (isNameKey n) (isNameKey n) := by
    unfold isNameKey
    split
    · exact inStep_pure rfl
    · exact inStep_throw _
    · exact inStep_pure rfl
  refine hkey.bind ?_
  rintro bare _ rfl
  exact h bare

/-! ## Parts -/

theorem both_leaveOut (h : Aligned ps) (hmem : (i, j) ∈ ps) : Both s s' ps (leaveOut i) (leaveOut j) := by
  intro w w' hw
  refine .inl ⟨(), (), _, _, rfl, rfl, { hw with done := ?_ }, trivial⟩
  intro p hp
  have halign := h p hp (i, j) hmem
  simp [halign, hw.done p hp]

theorem both_fresh (h : FreshInStep s s' x y) : Both s s' ps (fresh x) (fresh y) := by
  intro w w' hw
  have hinner := h { w with own := { w.own with done := [] } } { w' with own := { w'.own with done := [] } }
    { hw with done := by simp } rfl rfl
  obtain ⟨a, b, v, v', hx, hy, hv, -⟩ | ⟨e, v, v', hx, hy⟩ := hinner
  · refine .inl ⟨(), (), { v with own := { v.own with done := w.own.done } },
      { v' with own := { v'.own with done := w'.own.done } }, ?_, ?_, { hv with done := hw.done }, trivial⟩
    · change EStateM.bind x _ _ = _
      simp only [EStateM.bind, hx]
      rfl
    · change EStateM.bind y _ _ = _
      simp only [EStateM.bind, hy]
      rfl
  · refine .inr ⟨e, v, v', ?_, ?_⟩
    · change EStateM.bind x _ _ = _
      simp only [EStateM.bind, hx]
    · change EStateM.bind y _ _ = _
      simp only [EStateM.bind, hy]

theorem both_freshOf (qs : Pairs) (h : Both s s' qs x y) :
    Both s s' ps (fresh x) (fresh y) := both_fresh h.fresh

theorem part_eq (hi : i ≠ .absent) (w : Work Draft) :
    part inner i w = (if w.own.done.contains i then pure ()
      else leaveOut i >>= fun _ => fresh (inner i)) w := by
  have hrequire : require (i != .absent) "a part of a node is missing" = (pure () : Write Unit) := by
    rw [require, if_pos (by simpa using hi)]
  unfold part
  rw [hrequire]
  rfl

theorem both_part {inner' : NodeId → Write Unit} (hi : i ≠ .absent) (hj : j ≠ .absent) (h : Aligned ps)
    (hmem : (i, j) ∈ ps) (hinner : FreshInStep s s' (inner i) (inner' j)) :
    Both s s' ps (part inner i) (part inner' j) := by
  intro w w' hw
  have hdone : w.own.done.contains i = w'.own.done.contains j := by
    simpa using hw.done (i, j) hmem
  unfold SameOutcome
  rw [part_eq hi, part_eq hj, hdone]
  split
  · exact both_pure w w' hw
  · exact (both_leaveOut h hmem).seq (both_fresh hinner) w w' hw

/-! ## What does not depend on links -/

section
variable (n : Node) (fs xs : List NodeId)

theorem ctorIdx_rebuild : (n.rebuild fs xs).ctorIdx = n.ctorIdx := by
  unfold Node.rebuild
  split <;> rfl

theorem operatorCode?_rebuild : (n.rebuild fs xs).operatorCode? = n.operatorCode? := by
  unfold Node.rebuild
  split <;> rfl

theorem rebuild_eq_nil : n.rebuild fs xs = .primitive .nil ↔ n = .primitive .nil := by
  unfold Node.rebuild
  split <;> simp

theorem isNameKey_rebuild : isNameKey (n.rebuild fs xs) = isNameKey n := by
  unfold Node.rebuild
  split <;> rfl

theorem keyText_rebuild : keyText (n.rebuild fs xs) = keyText n := by
  unfold Node.rebuild
  split <;> rfl

theorem isBuiltin_rebuild : isBuiltin (n.rebuild fs xs) = isBuiltin n := by
  unfold Node.rebuild
  split <;> rfl

theorem isListNode_rebuild : isListNode (n.rebuild fs xs) = isListNode n := by
  unfold Node.rebuild
  split <;> rfl

end

theorem links_rebuild (n : Node) {xs : List NodeId} (hf : fs.length = n.fields.length)
    (hx : xs.length = n.items.length) : (n.rebuild fs xs).fields = fs ∧ (n.rebuild fs xs).items = xs := by
  have hnil : n.items = [] → [] = xs := by
    intro h
    rw [h] at hx
    exact (List.length_eq_zero_iff.mp hx).symm
  cases n
  case list =>
    rw [List.length_eq_zero_iff.mp hf]
    exact ⟨rfl, rfl⟩
  case block =>
    obtain ⟨a, rfl⟩ := List.length_eq_one_iff.mp hf
    exact ⟨rfl, rfl⟩
  case ifElse =>
    obtain ⟨a, b, c, rfl⟩ := List.length_eq_three.mp hf
    exact ⟨rfl, rfl⟩
  case test | numericFor | iteratorFor =>
    obtain ⟨a, b, c, rfl⟩ := List.length_eq_three.mp hf
    exact ⟨rfl, hnil rfl⟩
  case iterate | count =>
    match fs, hf with
    | [a, b, c, d], _ => exact ⟨rfl, hnil rfl⟩
  case arrayRecord | unary | jump | stop | ret =>
    obtain ⟨a, rfl⟩ := List.length_eq_one_iff.mp hf
    exact ⟨rfl, hnil rfl⟩
  case absent | identifier | multres | vararg | breakLoop | constant | primitive =>
    exact ⟨(List.length_eq_zero_iff.mp hf).symm, hnil rfl⟩
  all_goals
    obtain ⟨a, b, rfl⟩ := List.length_eq_two.mp hf
    exact ⟨rfl, hnil rfl⟩
theorem forall₂_one (h : List.Forall₂ R [a] fs) : ∃ a', fs = [a'] ∧ R a a' := by
  cases h with
  | cons ha h =>
    cases h
    exact ⟨_, rfl, ha⟩

theorem forall₂_two (h : List.Forall₂ R [a, b] fs) : ∃ a' b', fs = [a', b'] ∧ R a a' ∧ R b b' := by
  cases h with
  | cons ha h =>
    obtain ⟨b', rfl, hb⟩ := forall₂_one h
    exact ⟨_, b', rfl, ha, hb⟩

theorem forall₂_three {c : NodeId} (h : List.Forall₂ R [a, b, c] fs) :
    ∃ a' b' c', fs = [a', b', c'] ∧ R a a' ∧ R b b' ∧ R c c' := by
  cases h with
  | cons ha h =>
    obtain ⟨b', c', rfl, hb, hc⟩ := forall₂_two h
    exact ⟨_, b', c', rfl, ha, hb, hc⟩

theorem Twin.mirror (h : Twin s s' k i j) : Mirror s s' (Twin s s' (k - 1)) i j := by
  cases k with
  | zero => exact h.elim
  | succ k => exact h

theorem Twin.rebuild (h : Twin s s' k i j) : ∃ fs xs, s'.node j = (s.node i).rebuild fs xs := by
  obtain ⟨fs, xs, -, -, hn⟩ := h.mirror.links
  exact ⟨fs, xs, hn⟩

theorem Twin.ctorIdx (h : Twin s s' k i j) : (s'.node j).ctorIdx = (s.node i).ctorIdx := by
  obtain ⟨fs, xs, hn⟩ := h.rebuild
  rw [hn, ctorIdx_rebuild]

theorem Twin.operatorCode? (h : Twin s s' k i j) :
    (s'.node j).operatorCode? = (s.node i).operatorCode? := by
  obtain ⟨fs, xs, hn⟩ := h.rebuild
  rw [hn, operatorCode?_rebuild]

end LuaLift.Proofs
