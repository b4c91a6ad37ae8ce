import Mathlib.Data.List.Induction
import Mathlib.Logic.Function.Basic
import LuaLift.Proofs.Sharing
import LuaLift.Proofs.Succeeding
import LuaLift.Tree.Constructor

/-! # Entries of a constructor

Entries are written array first, each item at its index, then the records in their order, and an
entry replaces what an earlier one gave to its key. Insertions into an empty constructor are meant
as assignments one after the other. `insertions_mean_assignments_iff` says when the two tables are
the same: an insertion that goes to the array does not replace an older record of its key. -/
namespace LuaLift.Proofs
open Tree

/-- A constant key. -/
inductive Key where
  | int (v : Int)
  | text (s : String)
deriving DecidableEq

def Key.node : Key → Node
  | .int v => .constant .integer (.number (.int v))
  | .text s => .constant .text (.text s)

/-- The index in the array that a key stands for. -/
def Key.index? : Key → Option Nat
  | .int v => if 0 ≤ v then some v.toNat else none
  | .text _ => none

variable {α β : Type} {k : Key} {records : List (Key × NodeId)} {array : List (Option NodeId)}
  {xs ys : List NodeId} {kind : ListKind} {z : α} {R : α → β → Prop}

theorem Key.index?_eq_some {i : Nat} : k.index? = some i ↔ k = .int i := by
  cases k with
  | int v => simp only [index?, Key.int.injEq]; split <;> simp <;> omega
  | text s => simp [index?]

/-! ## Tables -/

section
variable {α V : Type}

/-- The table after assignments one after the other. A value `none` is nil, which removes a key. -/
def tableAfter (v : α → Option V) (es : List (Key × α)) : Key → Option V :=
  es.foldl (fun t e => Function.update t e.1 (v e.2)) fun _ => none

/-- What the last assignment to a key assigns. -/
def lastEntry (k : Key) (es : List (Key × α)) : Option α :=
  (es.reverse.find? (·.1 == k)).map Prod.snd

theorem lastEntry_append (k : Key) (es fs : List (Key × α)) :
    lastEntry k (es ++ fs) = (lastEntry k fs).or (lastEntry k es) := by
  simp only [lastEntry, List.reverse_append, List.find?_append]
  cases fs.reverse.find? (·.1 == k) <;> rfl

theorem lastEntry_singleton (k : Key) (e : Key × α) :
    lastEntry k [e] = if e.1 = k then some e.2 else none := by
  by_cases h : e.1 = k <;> simp [lastEntry, h]

theorem lastEntry_cons (k : Key) (e : Key × α) (es : List (Key × α)) :
    lastEntry k (e :: es) = (lastEntry k es).or (if e.1 = k then some e.2 else none) := by
  rw [← lastEntry_singleton]
  exact lastEntry_append k [e] es

theorem lastEntry_map (k : Key) (f : α → β) (es : List (Key × α)) :
    lastEntry k (es.map fun e => (e.1, f e.2)) = (lastEntry k es).map f := by
  induction es with
  | nil => rfl
  | cons e es ih =>
    rw [List.map_cons, lastEntry_cons, lastEntry_cons, ih]
    cases lastEntry k es <;> by_cases h : e.1 = k <;> simp [h]

theorem tableAfter_apply (v : α → Option V) (es : List (Key × α)) (k : Key) :
    tableAfter v es k = (lastEntry k es).bind v := by
  induction es using List.reverseRecOn with
  | nil => rfl
  | append_singleton es e ih =>
    rw [tableAfter, List.foldl_append, List.foldl_cons, List.foldl_nil, lastEntry_append,
      lastEntry_singleton]
    by_cases h : e.1 = k
    · subst h
      simp
    · rw [Function.update_of_ne (Ne.symm h)]
      simpa [h, tableAfter] using ih

theorem tableAfter_eq_of_map {v : α → Option V} {u : β → Option V} {es : List (Key × α)}
    {fs : List (Key × β)} (h : es.map (fun e => (e.1, v e.2)) = fs.map fun e => (e.1, u e.2)) :
    tableAfter v es = tableAfter u fs := by
  have hfold : ∀ {γ : Type} (f : γ → Option V) (gs : List (Key × γ)), tableAfter f gs =
      (gs.map fun e => (e.1, f e.2)).foldl (fun t e => Function.update t e.1 e.2) fun _ => none := by
    intro γ f gs
    rw [List.foldl_map]
    rfl
  rw [hfold, hfold, h]

/-- Array items as entries, the first one at key 0. -/
def arrayEntries (xs : List α) : List (Key × α) := xs.zipIdx.map fun x => (.int x.2, x.1)

theorem map_arrayEntries (f : α → β) (xs : List α) :
    (arrayEntries xs).map (fun e => (e.1, f e.2)) = arrayEntries (xs.map f) := by
  simp [arrayEntries, List.zipIdx_map]

theorem lastEntry_arrayEntries (k : Key) (xs : List α) :
    lastEntry k (arrayEntries xs) = k.index?.bind (xs[·]?) := by
  induction xs using List.reverseRecOn with
  | nil => cases k.index? <;> rfl
  | append_singleton xs x ih =>
    have hlast : arrayEntries (xs ++ [x]) = arrayEntries xs ++ [(.int xs.length, x)] := by
      simp [arrayEntries, List.zipIdx_append]
    rw [hlast, lastEntry_append, lastEntry_singleton, ih]
    by_cases hk : Key.int xs.length = k
    · subst hk
      simp [Key.index?]
    · have hne : ∀ i, k.index? = some i → i ≠ xs.length := by
        rintro i hi rfl
        exact hk (Key.index?_eq_some.mp hi).symm
      rw [if_neg hk]
      cases hi : k.index? with
      | none => rfl
      | some i =>
        have := hne i hi
        simp only [Option.none_or, Option.bind_some, List.getElem?_append]
        split
        · rfl
        · rw [List.getElem?_eq_none (by omega), List.getElem?_eq_none (by simp; omega)]

end

/-! ## Insertions -/

/-- Whether a key goes to an array of length `n`: its index is at most one past the end, or 1. -/
def joinsArray (n : Nat) (k : Key) : Bool := k.index?.any fun i => i ≤ n || i == 1

theorem joinsArray_iff {n : Nat} : joinsArray n k ↔ ∃ i : Nat, k = .int i ∧ (i ≤ n ∨ i = 1) := by
  unfold joinsArray
  cases hk : k.index? with
  | none =>
    simp only [Option.any_none, Bool.false_eq_true, false_iff, not_exists, not_and]
    rintro i rfl
    simp [Key.index?] at hk
  | some i =>
    obtain rfl := Key.index?_eq_some.mp hk
    simp only [Option.any_some, Bool.or_eq_true, decide_eq_true_eq, beq_iff_eq, Key.int.injEq,
      Int.natCast_inj, exists_eq_left']

/-- The length of an array after an insertion. -/
def lengthAfter (n : Nat) (k : Key) : Nat :=
  if joinsArray n k then max n (k.index?.getD 0 + 1) else n

/-- The insertions that go to the records, from an array of length `n` on. -/
def recordsFrom (n : Nat) : List (Key × NodeId) → List (Key × NodeId)
  | [] => []
  | e :: es =>
    if joinsArray n e.1 then recordsFrom (lengthAfter n e.1) es else e :: recordsFrom n es

/-- The values of the array items and the records of a constructor. An array item that is `none` is
the nil that fills the place before the first value. -/
structure Parts where
  array : List (Option NodeId) := []
  records : List (Key × NodeId) := []

namespace Parts
variable (p : Parts) (k : Key) (x : NodeId)

def entries : List (Key × Option NodeId) :=
  arrayEntries p.array ++ p.records.map fun e => (e.1, some e.2)

/-- An empty array that is to start at 1 gets a nil in front. -/
def started (xs : List (Option NodeId)) (i : Nat) : List (Option NodeId) :=
  if i = 1 ∧ xs.isEmpty then [none] else xs

/-- A value at an index that is at most one past the end. -/
def placed (xs : List (Option NodeId)) (i : Nat) (x : NodeId) : List (Option NodeId) :=
  if i = xs.length then xs ++ [some x] else xs.set i (some x)

def insert : Parts :=
  if joinsArray p.array.length k then
    { p with array := placed (started p.array (k.index?.getD 0)) (k.index?.getD 0) x }
  else { p with records := p.records ++ [(k, x)] }

/-- What the array has at a key. -/
def atKey : Option NodeId := (k.index?.bind (p.array[·]?)).join

variable {xs : List (Option NodeId)} {i : Nat}

theorem le_length_started (hi : i ≤ xs.length ∨ i = 1) : i ≤ (started xs i).length := by
  unfold started
  split
  · simp_all
  · cases xs <;> simp_all; omega

theorem get_started (j : Nat) : (started xs i)[j]?.join = xs[j]?.join := by
  unfold started
  split
  · rename_i h
    rw [List.isEmpty_iff.mp h.2]
    cases j <;> rfl
  · rfl

theorem length_started : max (started xs i).length (i + 1) = max xs.length (i + 1) := by
  unfold started
  split
  · rename_i h
    rw [h.1, List.isEmpty_iff.mp h.2]
    rfl
  · rfl

theorem get_placed (hi : i ≤ xs.length) (j : Nat) :
    (placed xs i x)[j]?.join = if j = i then some x else xs[j]?.join := by
  unfold placed
  split
  · subst i
    rcases Nat.lt_trichotomy j xs.length with hj | hj | hj
    · rw [List.getElem?_append_left hj, if_neg (by omega)]
    · simp [hj]
    · rw [if_neg (by omega), List.getElem?_eq_none (by simp; omega), List.getElem?_eq_none (by omega)]
  · rw [List.getElem?_set]
    by_cases hj : j = i
    · subst hj
      simp [show j < xs.length by omega]
    · rw [if_neg (Ne.symm hj), if_neg hj]

theorem length_placed (hi : i ≤ xs.length) : (placed xs i x).length = max xs.length (i + 1) := by
  unfold placed
  split <;> simp <;> omega

/-! ### One insertion -/

variable {p k}

theorem insert_of_joins (hk : k = .int i) (hi : i ≤ p.array.length ∨ i = 1) :
    p.insert k x = { p with array := placed (started p.array i) i x } := by
  have hj : joinsArray p.array.length k := joinsArray_iff.mpr ⟨i, hk, hi⟩
  rw [insert, if_pos hj, Key.index?_eq_some.mpr hk, Option.getD_some]

theorem insert_of_not_joins (h : ¬ joinsArray p.array.length k) :
    p.insert k x = { p with records := p.records ++ [(k, x)] } := if_neg h

theorem length_insert (p : Parts) (k : Key) :
    (p.insert k x).array.length = lengthAfter p.array.length k := by
  by_cases h : joinsArray p.array.length k
  · obtain ⟨i, rfl, hi⟩ := joinsArray_iff.mp h
    rw [insert_of_joins x rfl hi, length_placed x (le_length_started hi), length_started, lengthAfter,
      if_pos h]
    simp [Key.index?]
  · rw [insert_of_not_joins x h, lengthAfter, if_neg h]

theorem atKey_insert (p : Parts) (k k' : Key) :
    (p.insert k x).atKey k' =
      if joinsArray p.array.length k ∧ k' = k then some x else p.atKey k' := by
  by_cases h : joinsArray p.array.length k
  · obtain ⟨i, rfl, hi⟩ := joinsArray_iff.mp h
    rw [insert_of_joins x rfl hi]
    simp only [h, true_and, atKey]
    cases hk : k'.index? with
    | none =>
      rw [if_neg (by rintro rfl; simp [Key.index?] at hk)]
      rfl
    | some j =>
      obtain rfl := Key.index?_eq_some.mp hk
      simp only [Option.bind_some, get_placed x (le_length_started hi), get_started, Key.int.injEq,
        Int.natCast_inj]
  · rw [insert_of_not_joins x h, if_neg (by simp [h])]
    rfl

/-! ### All insertions -/

/-- A constructor after insertions one after the other. -/
def insertAll (p : Parts) (es : List (Key × NodeId)) : Parts :=
  es.foldl (fun p e => p.insert e.1 e.2) p

theorem records_insertAll (p : Parts) (es : List (Key × NodeId)) :
    (p.insertAll es).records = p.records ++ recordsFrom p.array.length es := by
  induction es generalizing p with
  | nil => simp [insertAll, recordsFrom]
  | cons e es ih =>
    have hstep : (p.insertAll (e :: es)).records = ((p.insert e.1 e.2).insertAll es).records := rfl
    rw [hstep, ih, length_insert, recordsFrom]
    by_cases h : joinsArray p.array.length e.1
    · obtain ⟨i, hk, hi⟩ := joinsArray_iff.mp h
      rw [if_pos h, insert_of_joins e.2 hk hi]
    · rw [if_neg h, insert_of_not_joins e.2 h, lengthAfter, if_neg h]
      simp

theorem atKey_insertAll (p : Parts) (es : List (Key × NodeId)) (k : Key)
    (h : lastEntry k (recordsFrom p.array.length es) = none) :
    (p.insertAll es).atKey k = (lastEntry k es).or (p.atKey k) := by
  induction es generalizing p with
  | nil => rfl
  | cons e es ih =>
    have hstep : (p.insertAll (e :: es)).atKey k = ((p.insert e.1 e.2).insertAll es).atKey k := rfl
    rw [recordsFrom] at h
    rw [hstep, lastEntry_cons]
    by_cases hj : joinsArray p.array.length e.1
    · rw [if_pos hj] at h
      rw [ih _ (by rw [length_insert]; exact h), atKey_insert]
      by_cases hk : e.1 = k
      · subst hk
        simp [hj]
      · simp [hk, Ne.symm hk]
    · rw [if_neg hj, lastEntry_cons, Option.or_eq_none_iff] at h
      have hk : e.1 ≠ k := fun hk => by simp [hk] at h
      rw [ih _ (by rw [length_insert, lengthAfter, if_neg hj]; exact h.1), atKey_insert]
      simp [hj, hk]

variable {V : Type} (v : NodeId → Option V)

/-- A record hides the array item of its key. -/
theorem tableAfter_entries (p : Parts) (k : Key) :
    tableAfter (·.bind v) p.entries k = ((lastEntry k p.records).or (p.atKey k)).bind v := by
  rw [tableAfter_apply, entries, lastEntry_append, lastEntry_map, lastEntry_arrayEntries, atKey]
  cases lastEntry k p.records with
  | some x => rfl
  | none => cases k.index?.bind (p.array[·]?) <;> rfl

/-- The table of a constructor that was empty: each key has its last record, or else its last
insertion. -/
theorem tableAfter_insertAll (es : List (Key × NodeId)) (k : Key) :
    tableAfter (·.bind v) (insertAll {} es).entries k =
      ((lastEntry k (recordsFrom 0 es)).or (lastEntry k es)).bind v := by
  have hrecords : (insertAll {} es).records = recordsFrom 0 es := records_insertAll {} es
  rw [tableAfter_entries, hrecords]
  cases h : lastEntry k (recordsFrom 0 es) with
  | some x => rfl
  | none =>
    have hempty : atKey {} k = none := by cases hk : k.index? <;> simp [atKey, hk]
    rw [atKey_insertAll {} es k h, hempty, Option.or_none, Option.none_or]

end Parts

/-! ## Constructors in a store -/

/-- All nodes but lists stay. -/
def KeepsUnlisted (s s' : Store) : Prop :=
  ∀ i n, s.node i = n → n ≠ .absent → (∀ kind xs, n ≠ .list kind xs) → s'.node i = n

/-- A node is an array item with a value, or with the nil that fills a place. -/
inductive IsItem (s : Store) (x : NodeId) : Option NodeId → Prop
  | value {i} : s.node x = .arrayRecord i → IsItem s x (some i)
  | nil {i} : s.node x = .arrayRecord i → s.node i = .primitive .nil → IsItem s x none

def IsRecord (s : Store) (x : NodeId) (e : Key × NodeId) : Prop :=
  ∃ i, s.node x = .tableRecord i e.2 ∧ s.node i = e.1.node

/-- The constructor `c` has these parts, in the lists `a` and `r`. -/
structure HasParts (s : Store) (c a r : NodeId) (p : Parts) : Prop where
  table : s.node c = .table a r
  apart : a ≠ r
  array : ∃ xs, s.node a = .list .records xs ∧ List.Forall₂ (IsItem s) xs p.array
  records : ∃ ys, s.node r = .list .records ys ∧ List.Forall₂ (IsRecord s) ys p.records

section
variable {s s' s'' : Store} {c a r x : NodeId} {p : Parts}

theorem KeepsUnlisted.trans (h : KeepsUnlisted s s') (h' : KeepsUnlisted s' s'') :
    KeepsUnlisted s s'' := fun i n hn hp hl => h' i n (h i n hn hp hl) hp hl

theorem Grows.keepsUnlisted (h : Grows s s') : KeepsUnlisted s s' :=
  fun _ _ hn hp _ => h.node_eq hn hp

theorem keepsUnlisted_setNode {n : Node} (ha : s.node a = .list kind xs) :
    KeepsUnlisted s (s.setNode a n) := by
  intro i m hm _ hl
  rw [node_setNode_of_ne, hm]
  rintro rfl
  exact hl kind xs (hm.symm.trans ha)

theorem KeepsUnlisted.key (h : KeepsUnlisted s s') (hx : s.node x = k.node) : s'.node x = k.node := by
  cases k <;> exact h x _ hx nofun nofun

theorem IsItem.carry {o : Option NodeId} (hi : IsItem s x o) (h : KeepsUnlisted s s') :
    IsItem s' x o := by
  cases hi with
  | value hx => exact .value (h _ _ hx nofun nofun)
  | nil hx hn => exact .nil (h _ _ hx nofun nofun) (h _ _ hn nofun nofun)

theorem IsRecord.carry {e : Key × NodeId} (hi : IsRecord s x e) (h : KeepsUnlisted s s') :
    IsRecord s' x e := by
  obtain ⟨i, hx, hk⟩ := hi
  exact ⟨i, h _ _ hx nofun nofun, h.key hk⟩

theorem HasParts.grows (h : HasParts s c a r p) (hg : Grows s s') : HasParts s' c a r p := by
  obtain ⟨xs, ha, hxs⟩ := h.array
  obtain ⟨ys, hr, hys⟩ := h.records
  have hk := hg.keepsUnlisted
  exact ⟨hg.node_eq h.table nofun, h.apart,
    ⟨xs, hg.node_eq ha nofun, hxs.imp fun _ _ hx => hx.carry hk⟩,
    ⟨ys, hg.node_eq hr nofun, hys.imp fun _ _ hy => hy.carry hk⟩⟩

theorem HasParts.setArray (h : HasParts s c a r p) (hxs : List.Forall₂ (IsItem s) xs array) :
    HasParts (s.setNode a (.list .records xs)) c a r { p with array := array } := by
  obtain ⟨xs', ha, -⟩ := h.array
  obtain ⟨ys, hr, hys⟩ := h.records
  have hk : KeepsUnlisted s (s.setNode a (.list .records xs)) := keepsUnlisted_setNode ha
  exact ⟨hk _ _ h.table nofun nofun, h.apart,
    ⟨xs, node_setNode_self (inside_of_node (by rw [ha]; nofun)), hxs.imp fun _ _ hx => hx.carry hk⟩,
    ⟨ys, by rw [node_setNode_of_ne h.apart.symm, hr], hys.imp fun _ _ hy => hy.carry hk⟩⟩

theorem HasParts.setRecords (h : HasParts s c a r p) (hys : List.Forall₂ (IsRecord s) ys records) :
    HasParts (s.setNode r (.list .records ys)) c a r { p with records := records } := by
  obtain ⟨xs, ha, hxs⟩ := h.array
  obtain ⟨ys', hr, -⟩ := h.records
  have hk : KeepsUnlisted s (s.setNode r (.list .records ys)) := keepsUnlisted_setNode hr
  exact ⟨hk _ _ h.table nofun nofun, h.apart,
    ⟨xs, by rw [node_setNode_of_ne h.apart, ha], hxs.imp fun _ _ hx => hx.carry hk⟩,
    ⟨ys, node_setNode_self (inside_of_node (by rw [hr]; nofun)), hys.imp fun _ _ hy => hy.carry hk⟩⟩

end

/-! ## The steps of an insertion -/

section
variable {σ : Type} {w : Work σ} {c a r x : NodeId} {p : Parts}

theorem succeeds_items_list {post : List NodeId → Work σ → Prop} (hi : w.store.node x = .list kind xs)
    (h : post xs w) : Succeeds (Pass.items x) w post := by
  refine Succeeds.bind (succeeds_node ?_)
  rw [hi]
  exact .pure h

theorem succeeds_setItems_list {post : Unit → Work σ → Prop} (hi : w.store.node x = .list kind xs)
    (h : post () { w with store := w.store.setNode x (.list kind ys) }) :
    Succeeds (Pass.setItems x ys) w post := by
  refine Succeeds.bind (succeeds_node ?_)
  rw [hi]
  exact succeeds_modifyStore h

/-- The new parts of a constructor, after a step that touches no nodes but lists. -/
def Becomes (w : Work σ) (c a r : NodeId) (p : Parts) (w' : Work σ) : Prop :=
  KeepsUnlisted w.store w'.store ∧ HasParts w'.store c a r p

theorem Becomes.after {w1 w2 : Work σ} (h : Becomes w1 c a r p w2)
    (h1 : KeepsUnlisted w.store w1.store) : Becomes w c a r p w2 := ⟨h1.trans h.1, h.2⟩

theorem HasParts.becomes_setArray (h : HasParts w.store c a r p)
    (hxs : List.Forall₂ (IsItem w.store) xs array) :
    Succeeds (Pass.setItems a xs) w fun _ => Becomes w c a r { p with array := array } := by
  obtain ⟨xs', ha, -⟩ := h.array
  exact succeeds_setItems_list ha ⟨keepsUnlisted_setNode ha, h.setArray hxs⟩

theorem HasParts.becomes_setRecords (h : HasParts w.store c a r p)
    (hys : List.Forall₂ (IsRecord w.store) ys records) :
    Succeeds (Pass.setItems r ys) w fun _ => Becomes w c a r { p with records := records } := by
  obtain ⟨ys', hr, -⟩ := h.records
  exact succeeds_setItems_list hr ⟨keepsUnlisted_setNode hr, h.setRecords hys⟩

theorem forall₂_set {xs : List α} {ys : List β} {y : β} (h : List.Forall₂ R xs ys) (hz : R z y) (i : Nat) :
    List.Forall₂ R (xs.set i z) (ys.set i y) := by
  induction h generalizing i with
  | nil => exact .nil
  | cons hxy hrest ih =>
    cases i with
    | zero => exact .cons hz hrest
    | succ i => exact .cons hxy (ih i)

theorem HasParts.place (h : HasParts w.store c a r p) (index : Nat) (value : NodeId) :
    Succeeds (do
      let xs ← Pass.items a
      if xs.length < index then return false
      let record ← Pass.add (.arrayRecord value)
      if xs.isEmpty ∨ index = xs.length then Pass.setItems a (xs ++ [record])
      else Pass.setItems a (xs.set index record)
      return true) w fun b w' => b = decide (index ≤ p.array.length) ∧
        Becomes w c a r (if b then { p with array := Parts.placed p.array index value } else p) w' := by
  obtain ⟨xs, ha, hxs⟩ := h.array
  have hlen := hxs.length_eq
  refine Succeeds.bind (succeeds_items_list ha ?_)
  split
  · exact .pure ⟨by simp; omega, fun i n hn _ _ => hn, h⟩
  · refine Succeeds.next (succeeds_added _ w) fun record w1 ⟨hg, hrecord⟩ => ?_
    have h1 := h.grows hg
    have hxs1 := hxs.imp fun _ _ hx => hx.carry hg.keepsUnlisted
    have hnew : IsItem w1.store record (some value) := .value hrecord
    have hdone : ∀ {ys : List NodeId},
        List.Forall₂ (IsItem w1.store) ys (Parts.placed p.array index value) →
        Succeeds (do Pass.setItems a ys; return true) w1 fun b w' =>
          b = decide (index ≤ p.array.length) ∧ Becomes w c a r
            (if b then { p with array := Parts.placed p.array index value } else p) w' := by
      intro ys hys
      refine (h1.becomes_setArray hys).next fun _ w2 h2 => .pure ⟨by simp; omega, ?_⟩
      exact h2.after hg.keepsUnlisted
    unfold Parts.placed at hdone ⊢
    split
    · rename_i hend
      have hindex : index = p.array.length := by
        rw [List.isEmpty_iff_length_eq_zero] at hend
        omega
      rw [if_pos hindex] at hdone
      rw [if_pos hindex]
      exact hdone (List.rel_append hxs1 (.cons hnew .nil))
    · have hindex : index ≠ p.array.length := by
        omega
      rw [if_neg hindex] at hdone
      rw [if_neg hindex]
      exact hdone (forall₂_set hxs1 hnew index)

theorem HasParts.insertArrayItem (h : HasParts w.store c a r p) (index : Nat) (value : NodeId) :
    Succeeds (insertArrayItem a index value) w fun b w' =>
      b = decide (index ≤ p.array.length ∨ index = 1) ∧ Becomes w c a r (if b then
        { p with array := Parts.placed (Parts.started p.array index) index value } else p) w' := by
  obtain ⟨xs, ha, hxs⟩ := h.array
  have hlen := hxs.length_eq
  have hempty : xs.isEmpty = p.array.isEmpty := by
    rw [Bool.eq_iff_iff, List.isEmpty_iff_length_eq_zero, List.isEmpty_iff_length_eq_zero, hlen]
  refine Succeeds.bind (succeeds_items_list ha ?_)
  unfold Parts.started
  dsimp only
  rw [hempty]
  split
  · rename_i hnew
    obtain ⟨rfl, hnil⟩ := hnew
    rw [List.isEmpty_iff] at hnil
    refine Succeeds.next (succeeds_added _ w) fun nil w1 ⟨hg1, hn1⟩ => ?_
    refine Succeeds.next (succeeds_added _ w1) fun record w2 ⟨hg2, hn2⟩ => ?_
    have h2 := (h.grows hg1).grows hg2
    have hitem : List.Forall₂ (IsItem w2.store) [record] [none] :=
      .cons (.nil hn2 (hg2.node_eq hn1 nofun)) .nil
    obtain ⟨xs2, ha2, hxs2⟩ := h2.array
    have hxs2' : xs2 = [] := by
      rw [hnil] at hxs2
      exact List.forall₂_nil_right_iff.mp hxs2
    refine Succeeds.bind (Succeeds.bind (succeeds_items_list ha2 ?_))
    rw [hxs2', List.nil_append]
    refine (h2.becomes_setArray hitem).mono fun _ w3 h3 => ?_
    refine (h3.2.place 1 value).mono fun b w' ⟨hb, hw⟩ => ?_
    obtain rfl : b = true := hb
    refine ⟨by simp, ?_⟩
    exact hw.after ((hg1.trans hg2).keepsUnlisted.trans h3.1)
  · rename_i hold
    refine (h.place index value).mono fun b w' ⟨hb, hw⟩ => ⟨?_, hw⟩
    rw [hb]
    rw [List.isEmpty_iff_length_eq_zero] at hold
    simp only [decide_eq_decide]
    omega

theorem exists_of_forall₂ {xs : List α} {ys : List β} (h : List.Forall₂ R xs ys) (hz : z ∈ xs) :
    ∃ y, R z y := by
  induction h with
  | nil => cases hz
  | cons hxy _ ih =>
    cases hz with
    | head => exact ⟨_, hxy⟩
    | tail _ hz => exact ih hz

theorem HasParts.insertRecord (h : HasParts w.store c a r p) {key : NodeId}
    (hkey : w.store.node key = k.node) (value : NodeId) :
    Succeeds (insertRecord r key value) w fun _ =>
      Becomes w c a r { p with records := p.records ++ [(k, value)] } := by
  refine Succeeds.next (succeeds_added _ w) fun record w1 ⟨hg, hrecord⟩ => ?_
  have h1 := h.grows hg
  obtain ⟨ys, hr, hys⟩ := h1.records
  have hnew : IsRecord w1.store record (k, value) := ⟨key, hrecord, hg.keepsUnlisted.key hkey⟩
  refine Succeeds.bind (succeeds_items_list hr ?_)
  have hdone : Succeeds (Pass.setItems r (ys ++ [record])) w1 fun _ =>
      Becomes w c a r { p with records := p.records ++ [(k, value)] } :=
    (h1.becomes_setRecords (List.rel_append hys (.cons hnew .nil))).mono fun _ _ h2 =>
      h2.after hg.keepsUnlisted
  cases hlast : ys.getLast? with
  | none => exact hdone
  | some last =>
    -- All records have keys, so that the last one is no call and no vararg.
    obtain ⟨e, i, hn, -⟩ := exists_of_forall₂ hys (List.mem_of_getLast? hlast)
    refine Succeeds.bind (succeeds_node ?_)
    rw [hn]
    exact hdone

theorem HasParts.insertEntry (h : HasParts w.store c a r p) {key : NodeId}
    (hkey : w.store.node key = k.node) (value : NodeId) :
    Succeeds (insertEntry c key value) w fun _ => Becomes w c a r (p.insert k value) := by
  obtain ⟨xs, ha, -⟩ := h.array
  obtain ⟨ys, hr, -⟩ := h.records
  refine Succeeds.bind (Succeeds.bind (succeeds_node ?_))
  rw [h.table]
  refine .pure (Succeeds.bind (succeeds_items_list ha (Succeeds.bind (succeeds_items_list hr
    (Succeeds.bind (succeeds_node ?_))))))
  rw [hkey]
  have hrecord : ¬ joinsArray p.array.length k → Succeeds (Tree.insertRecord r key value) w fun _ =>
      Becomes w c a r (p.insert k value) := by
    intro hj
    rw [Parts.insert_of_not_joins value hj]
    exact h.insertRecord hkey value
  cases k with
  | text s => exact Succeeds.bind (.pure (hrecord (by simp [joinsArray, Key.index?])))
  | int v =>
    refine Succeeds.bind (.pure ?_)
    by_cases hv : 0 ≤ v
    · obtain ⟨i, rfl⟩ := Int.eq_ofNat_of_zero_le hv
      rw [if_pos hv, Int.toNat_natCast]
      refine (h.insertArrayItem i value).next fun b w1 ⟨hb, hw1⟩ => ?_
      by_cases hi : i ≤ p.array.length ∨ i = 1
      · obtain rfl : b = true := by rw [hb, decide_eq_true hi]
        rw [Parts.insert_of_joins value rfl hi]
        exact .pure hw1
      · obtain rfl : b = false := by rw [hb, decide_eq_false hi]
        have hj : ¬ joinsArray p.array.length (.int i) := by
          rw [joinsArray_iff]
          rintro ⟨j, hij, hj⟩
          cases hij
          exact hi hj
        rw [Parts.insert_of_not_joins value hj]
        exact (hw1.2.insertRecord (hw1.1.key hkey) value).mono fun _ w2 hw2 => hw2.after hw1.1
    · rw [if_neg hv]
      refine hrecord ?_
      rw [joinsArray_iff]
      rintro ⟨i, hi, -⟩
      cases hi
      omega

/-- An insertion of a value at a key, with the node of the key. -/
structure Insertion where
  key : Key
  keyNode : NodeId
  value : NodeId

/-- What an insertion is meant to do: assign the value to the key. -/
def Insertion.entry (e : Insertion) : Key × NodeId := (e.key, e.value)

theorem HasParts.insertAll (h : HasParts w.store c a r p) {es : List Insertion}
    (hes : ∀ e ∈ es, w.store.node e.keyNode = e.key.node) :
    Succeeds (es.forM fun e => Tree.insertEntry c e.keyNode e.value) w fun _ =>
      Becomes w c a r (p.insertAll (es.map Insertion.entry)) := by
  induction es generalizing p w with
  | nil => exact .pure ⟨fun i n hn _ _ => hn, h⟩
  | cons e es ih =>
    have he := h.insertEntry (hes e List.mem_cons_self) e.value
    refine Succeeds.next he fun _ w1 hw1 => ?_
    have hrest := ih hw1.2 fun f hf => hw1.1.key (hes f (List.mem_cons_of_mem _ hf))
    exact hrest.mono fun _ w2 hw2 => hw2.after hw1.1

end

/-! ## What a constructor is written as -/

/-- The constructor `c` has array items with these values and records with these keys and values. -/
def IsWritten (s : Store) (c : NodeId) (array : List NodeId) (records : List (Key × NodeId)) : Prop :=
  ∃ a r xs ys, s.node c = .table a r ∧ s.node a = .list .records xs ∧ s.node r = .list .records ys ∧
    List.Forall₂ (fun x i => s.node x = .arrayRecord i) xs array ∧ List.Forall₂ (IsRecord s) ys records

/-- Nil is no value. -/
def NilAbsent {V : Type} (s : Store) (v : NodeId → Option V) : Prop :=
  ∀ i, s.node i = .primitive .nil → v i = none

theorem IsItem.written {s : Store} {os : List (Option NodeId)} (h : List.Forall₂ (IsItem s) xs os) :
    ∃ array, List.Forall₂ (fun x i => s.node x = .arrayRecord i) xs array ∧
      ∀ {V : Type} {v : NodeId → Option V}, NilAbsent s v → array.map v = os.map (·.bind v) := by
  induction h with
  | nil => exact ⟨[], .nil, fun _ => rfl⟩
  | cons hx _ ih =>
    obtain ⟨array, hall, hmap⟩ := ih
    cases hx with
    | @value i hi => exact ⟨i :: array, .cons hi hall, fun hv => by simp [hmap hv]⟩
    | @nil i hi hn => exact ⟨i :: array, .cons hi hall, fun hv => by simp [hmap hv, hv i hn]⟩

section
variable {σ : Type} {w : Work σ} {c a r : NodeId} {es : List Insertion}
  (hc : w.store.node c = .table a r) (har : a ≠ r) (ha : w.store.node a = .list .records [])
  (hr : w.store.node r = .list .records []) (hes : ∀ e ∈ es, w.store.node e.keyNode = e.key.node)
include hc har ha hr hes

/-- What is written after insertions into an empty constructor: a key has its last record, or else
its last insertion. -/
theorem written_after_insertions :
    Succeeds (es.forM fun e => insertEntry c e.keyNode e.value) w fun _ w' =>
      KeepsUnlisted w.store w'.store ∧ ∃ array records, IsWritten w'.store c array records ∧
        ∀ (V : Type) (v : NodeId → Option V), NilAbsent w'.store v → ∀ k,
          tableAfter v (arrayEntries array ++ records) k =
            ((lastEntry k (recordsFrom 0 (es.map Insertion.entry))).or
              (lastEntry k (es.map Insertion.entry))).bind v := by
  have hstart : HasParts w.store c a r {} := ⟨hc, har, ⟨[], ha, .nil⟩, ⟨[], hr, .nil⟩⟩
  refine (hstart.insertAll hes).mono fun _ w' ⟨hkeeps, hw⟩ => ⟨hkeeps, ?_⟩
  obtain ⟨xs, ha', hxs⟩ := hw.array
  obtain ⟨ys, hr', hys⟩ := hw.records
  obtain ⟨array, harray, hmap⟩ := IsItem.written hxs
  refine ⟨array, _, ⟨a, r, xs, ys, hw.table, ha', hr', harray, hys⟩, fun V v hv k => ?_⟩
  rw [← Parts.tableAfter_insertAll]
  refine congrFun (tableAfter_eq_of_map ?_) k
  rw [Parts.entries, List.map_append, List.map_append, map_arrayEntries v,
    map_arrayEntries fun o : Option NodeId => o.bind v, hmap hv, List.map_map]
  rfl

/-- Insertions of values at constant keys into an empty constructor give the table that assignments
in the same order give exactly if every key that has a record got its last value with its last
record: no key has changed, after it became a record, by an insertion into the array. -/
theorem insertions_mean_assignments_iff :
    Succeeds (es.forM fun e => insertEntry c e.keyNode e.value) w fun _ w' =>
      KeepsUnlisted w.store w'.store ∧ ∃ array records, IsWritten w'.store c array records ∧
        ∀ (V : Type) (v : NodeId → Option V), NilAbsent w'.store v →
          (tableAfter v (arrayEntries array ++ records) = tableAfter v (es.map Insertion.entry) ↔
            ∀ k x, lastEntry k (recordsFrom 0 (es.map Insertion.entry)) = some x →
              v x = tableAfter v (es.map Insertion.entry) k) := by
  refine (written_after_insertions hc har ha hr hes).mono fun _ w' ⟨hkeeps, array, records, hw, htable⟩ =>
    ⟨hkeeps, array, records, hw, fun V v hv => ?_⟩
  constructor
  · intro h k x hx
    rw [← h, htable V v hv, hx]
    rfl
  · intro h
    funext k
    rw [htable V v hv]
    cases hx : lastEntry k (recordsFrom 0 (es.map Insertion.entry)) with
    | some x => exact h k x hx
    | none => rw [Option.none_or, tableAfter_apply]

end

/-! ## Key 2 before and after key 1 -/

/-- An empty constructor, the keys 1, 2 and `x`, and three values. -/
def emptyConstructor : Store := numbered [
  .table ⟨2⟩ ⟨3⟩, .list .records [], .list .records [], (Key.int 1).node, (Key.int 2).node,
  (Key.text "x").node, .primitive .true, .primitive .false, .constant .text (.text "y")]

/-- The keys 1, 2, `x` and 2 again: each keeps to its part of the constructor. -/
def steadyInsertions : List Insertion :=
  [⟨.int 1, ⟨4⟩, ⟨7⟩⟩, ⟨.int 2, ⟨5⟩, ⟨8⟩⟩, ⟨.text "x", ⟨6⟩, ⟨9⟩⟩, ⟨.int 2, ⟨5⟩, ⟨7⟩⟩]

/-- The keys 2, 1 and 2 again: the second time, 2 continues the array. -/
def movingInsertions : List Insertion :=
  [⟨.int 2, ⟨5⟩, ⟨7⟩⟩, ⟨.int 1, ⟨4⟩, ⟨8⟩⟩, ⟨.int 2, ⟨5⟩, ⟨9⟩⟩]

theorem steadyInsertions_mean_assignments :
    Succeeds (steadyInsertions.forM fun e => insertEntry ⟨1⟩ e.keyNode e.value) ⟨emptyConstructor, ()⟩
      fun _ w' => ∃ array records, IsWritten w'.store ⟨1⟩ array records ∧
        ∀ (V : Type) (v : NodeId → Option V), NilAbsent w'.store v →
          tableAfter v (arrayEntries array ++ records) =
            tableAfter v (steadyInsertions.map Insertion.entry) := by
  refine Succeeds.mono (insertions_mean_assignments_iff rfl (by decide) rfl rfl (by decide))
    fun _ w' ⟨_, array, records, hw, hiff⟩ => ⟨array, records, hw, fun V v hv => ?_⟩
  refine (hiff V v hv).mpr fun k x hx => ?_
  have hrecords : recordsFrom 0 (steadyInsertions.map Insertion.entry) = [(.text "x", ⟨9⟩)] := by
    decide
  rw [hrecords, lastEntry_singleton] at hx
  split at hx
  · subst k
    cases hx
    rw [tableAfter_apply]
    rfl
  · cases hx

/-- Key 2 keeps its first value, which is written behind the second one. -/
theorem movingInsertions_keep_old_value :
    Succeeds (movingInsertions.forM fun e => insertEntry ⟨1⟩ e.keyNode e.value) ⟨emptyConstructor, ()⟩
      fun _ w' => ∃ array records, IsWritten w'.store ⟨1⟩ array records ∧
        ∃ v : NodeId → Option NodeId, NilAbsent w'.store v ∧
          tableAfter v (arrayEntries array ++ records) (.int 2) = some ⟨7⟩ ∧
          tableAfter v (movingInsertions.map Insertion.entry) (.int 2) = some ⟨9⟩ := by
  refine Succeeds.mono (written_after_insertions rfl (by decide) rfl rfl (by decide))
    fun _ w' ⟨hkeeps, array, records, hw, htable⟩ => ⟨array, records, hw, ?_⟩
  let v : NodeId → Option NodeId := fun i => if w'.store.node i = .primitive .nil then none else some i
  have hv : NilAbsent w'.store v := fun i hi => if_pos hi
  have h7 : v ⟨7⟩ = some ⟨7⟩ := if_neg (by rw [hkeeps ⟨7⟩ _ rfl (by decide) nofun]; decide)
  have h9 : v ⟨9⟩ = some ⟨9⟩ := if_neg (by rw [hkeeps ⟨9⟩ _ rfl (by decide) nofun]; decide)
  refine ⟨v, hv, ?_, ?_⟩
  · rw [htable NodeId v hv, ← h7]
    rfl
  · rw [tableAfter_apply, ← h9]
    rfl

end LuaLift.Proofs
