import Mathlib.Data.List.Basic
import LuaLift.Proofs.RecordSequences

/-! # The tree of functions and the records of a dump

A `RecordTree` gives every function of a tree a record of its own. While records are read, the
functions that wait are the roots of such trees, and the records of these trees, those of the
oldest tree first and in each tree the children's before the parent's, are all the records read
so far. One tree is left of an accepted dump: no record is lost and none occurs twice. -/
namespace LuaLift.Proofs
open Bytecode Dump

/-! ## Trees of records -/

/-- A record with the trees of its children, in the order of the constants. -/
inductive RecordTree where
  | node (record : PlacedRecord) (children : List RecordTree)

def RecordTree.record : RecordTree → PlacedRecord
  | .node record _ => record

def RecordTree.function (tree : RecordTree) : Prototype := tree.record.function

mutual

/-- The records of a tree, children before their parent and the last child first. -/
def RecordTree.postorder : RecordTree → List PlacedRecord
  | .node record children => RecordTree.postorders children ++ [record]

/-- The records of some trees, those of the last tree first. -/
def RecordTree.postorders : List RecordTree → List PlacedRecord
  | [] => []
  | tree :: trees => RecordTree.postorders trees ++ tree.postorder

end

/-- The children of every function are those of its record's children. -/
inductive RecordTree.Arranged : RecordTree → Prop
  | node {record : PlacedRecord} {children : List RecordTree}
      (functions : record.function.complex.flatMap childOf = children.map RecordTree.function)
      (below : ∀ c ∈ children, c.Arranged) : Arranged (.node record children)

/-- One record ends where the other starts, or before. -/
def PlacedRecord.Before (a b : PlacedRecord) : Prop := a.start + a.bytes.length ≤ b.start

/-- Every record of a tree stands behind those of its children. -/
inductive RecordTree.ChildrenFirst : RecordTree → Prop
  | node {record : PlacedRecord} {children : List RecordTree}
      (before : ∀ c ∈ children, c.record.Before record)
      (below : ∀ c ∈ children, c.ChildrenFirst) : ChildrenFirst (.node record children)

mutual

/-- The functions of a tree, children before their parent and the last child first. -/
def functionsOf : Prototype → List Prototype
  | ⟨flags, argumentCount, framesize, firstLine, lineCount, instructions, upvalues, complex, numbers,
      debug⟩ =>
    childFunctions complex ++ [⟨flags, argumentCount, framesize, firstLine, lineCount, instructions,
      upvalues, complex, numbers, debug⟩]

/-- The functions of the children among some constants, those of the last child first. -/
def childFunctions : List (Complex Prototype) → List Prototype
  | [] => []
  | .child p :: cs => childFunctions cs ++ functionsOf p
  | _ :: cs => childFunctions cs

end

theorem functionsOf_eq (p : Prototype) : functionsOf p = childFunctions p.complex ++ [p] := by
  cases p
  rw [functionsOf]

theorem childFunctions_eq (cs : List (Complex Prototype)) :
    childFunctions cs = (cs.flatMap childOf).reverse.flatMap functionsOf := by
  induction cs with
  | nil => rfl
  | cons c cs ih => cases c <;> simp [childFunctions, childOf, ih]

namespace RecordTree

theorem postorders_eq (trees : List RecordTree) : postorders trees = trees.reverse.flatMap postorder := by
  induction trees with
  | nil => rfl
  | cons tree trees ih => simp [postorders, ih]

theorem postorders_append (xs ys : List RecordTree) :
    postorders (xs ++ ys) = postorders ys ++ postorders xs := by
  simp [postorders_eq]

variable {trees : List RecordTree} {tree : RecordTree}

theorem Arranged.map_postorder (h : tree.Arranged) :
    tree.postorder.map PlacedRecord.function = functionsOf tree.function := by
  induction h with
  | @node record children functions _ ih =>
    have hchildren : (postorders children).map PlacedRecord.function =
        childFunctions record.function.complex := by
      rw [childFunctions_eq, functions, postorders_eq, List.map_flatMap, ← List.map_reverse,
        List.flatMap_map]
      exact List.flatMap_congr fun c hc => ih c (List.mem_reverse.mp hc)
    rw [postorder, List.map_append, hchildren]
    exact (functionsOf_eq record.function).symm

theorem record_mem_postorder (tree : RecordTree) : tree.record ∈ tree.postorder := by
  cases tree
  simp [postorder, record]

theorem mem_postorders (h : tree ∈ trees) {r : PlacedRecord} (hr : r ∈ tree.postorder) :
    r ∈ postorders trees := by
  rw [postorders_eq]
  exact List.mem_flatMap.mpr ⟨tree, List.mem_reverse.mpr h, hr⟩

theorem postorder_sublist (h : tree ∈ trees) : tree.postorder.Sublist (postorders trees) := by
  rw [postorders_eq, List.flatMap]
  exact List.sublist_flatten_of_mem (List.mem_map_of_mem (List.mem_reverse.mpr h))

theorem Arranged.childrenFirst (h : tree.Arranged) (hplaced : tree.postorder.Pairwise PlacedRecord.Before) :
    tree.ChildrenFirst := by
  induction h with
  | @node record children _ _ ih =>
    rw [postorder, List.pairwise_append] at hplaced
    obtain ⟨hchildren, -, hlast⟩ := hplaced
    constructor
    · intro c hc
      exact hlast _ (mem_postorders hc c.record_mem_postorder) _ List.mem_cons_self
    · intro c hc
      exact ih c hc (hchildren.sublist (postorder_sublist hc))

end RecordTree

/-! ## The waiting functions as roots -/

variable {numbering : Numbering} {stripped : Bool} {origin : String} {bytes : Bytes} {header : Header}
  {p : Prototype} {s t u : Source} {records : List PlacedRecord}

/-- The functions that wait are the roots of `trees`, the newest first. -/
structure Waiting (trees : List RecordTree) (s : Source) : Prop where
  pending : s.pending = trees.map RecordTree.function
  arranged : ∀ tree ∈ trees, tree.Arranged

theorem Waiting.record (h : Waiting trees s) {record : PlacedRecord}
    (hrecord : WholeRecord numbering stripped s record t) :
    ∃ trees', Waiting trees' (withFunction record.function t) ∧
      RecordTree.postorders trees' = RecordTree.postorders trees ++ [record] := by
  obtain ⟨notes, hpasses, -⟩ := hrecord.passes
  obtain ⟨children, others, rfl, hchildren, hothers⟩ :=
    List.map_eq_append_iff.mp (h.pending.symm.trans hpasses.pending)
  have harranged : (RecordTree.node record children).Arranged :=
    .node hchildren.symm fun c hc => h.arranged c (List.mem_append_left _ hc)
  refine ⟨.node record children :: others, ⟨?_, ?_⟩, ?_⟩
  · rw [List.map_cons, hothers]
    rfl
  · intro tree htree
    cases List.mem_cons.mp htree with
    | inl htree => exact htree ▸ harranged
    | inr htree => exact h.arranged tree (List.mem_append_right _ htree)
  · rw [RecordTree.postorders, RecordTree.postorder, RecordTree.postorders_append, List.append_assoc]

/-- The trees of the waiting functions hold the records that were read, each of them once. -/
theorem RecordsRead.waiting (h : RecordsRead numbering stripped s records t) (hs : Waiting trees s) :
    ∃ trees', Waiting trees' t ∧
      RecordTree.postorders trees' = RecordTree.postorders trees ++ records := by
  induction h generalizing trees with
  | none => exact ⟨trees, hs, by simp⟩
  | record first _ ih =>
    obtain ⟨trees₁, hfirst, hrecords₁⟩ := hs.record first
    obtain ⟨trees₂, hothers, hrecords₂⟩ := ih hfirst
    refine ⟨trees₂, hothers, ?_⟩
    rw [hrecords₂, hrecords₁, List.append_assoc]
    rfl

theorem RecordsRead.placed (h : RecordsRead numbering stripped s records t)
    (hs : s.rest.length ≤ s.size) :
    (∀ r ∈ records, s.offset ≤ r.start) ∧ records.Pairwise PlacedRecord.Before := by
  induction h with
  | none => simp
  | @record s t u record records first _ ih =>
    obtain ⟨notes, hpasses, -⟩ := first.passes
    have hlength := congrArg List.length first.rest
    rw [List.length_append] at hlength
    have hoffset : (withFunction record.function t).offset = record.start + record.bytes.length := by
      change t.size - t.rest.length = _
      rw [first.start, hpasses.size, Source.offset]
      omega
    obtain ⟨hlater, hplaced⟩ := ih (show t.rest.length ≤ t.size by rw [hpasses.size]; omega)
    rw [hoffset] at hlater
    constructor
    · intro r hr
      rw [← first.start]
      cases List.mem_cons.mp hr with
      | inl hr => rw [hr]
      | inr hr => exact Nat.le_trans (Nat.le_add_right _ _) (hlater r hr)
    · exact List.pairwise_cons.mpr ⟨hlater, hplaced⟩

theorem Finishes.pending (h : Finishes t u) : u.pending = t.pending := by
  cases h with
  | atEnd _ => rfl
  | noRecord hnone _ => exact hnone.pending

/-! ## Accepted dumps -/

/-- The functions of an accepted dump are those of its records, each of them once: the tree has a
record for every function, behind the records of its children, and its records, children before
their parent and the last child first, are the records of the dump in their order. -/
theorem accepted_tree_holds_records
    (h : (Dump.read numbering origin bytes).result = .ok (some (header, p))) :
    ∃ (s t u : Source) (records : List PlacedRecord) (tree : RecordTree),
      readHeader origin (.ofBytes bytes) = .ok (some header) s ∧
      RecordsRead numbering header.flags.stripped (behindHeader header s) records t ∧
      Finishes t u ∧ records.Pairwise PlacedRecord.Before ∧
      tree.function = p ∧ tree.Arranged ∧ tree.ChildrenFirst ∧ tree.postorder = records ∧
      functionsOf p = records.map PlacedRecord.function := by
  obtain ⟨s, records, t, u, hheader, hrecords, hfinishes, hpending, -⟩ :=
    accepted_records (congrArg (Reading.mk · _) h)
  have hstart : Waiting [] (behindHeader header s) :=
    ⟨((passes_header hheader).pending).symm, by simp⟩
  obtain ⟨trees, hwaiting, hpostorder⟩ := hrecords.waiting hstart
  have hplaced := (hrecords.placed (length_le_behindHeader hheader)).2
  -- one function is left, so there is one tree
  have hone : trees.map RecordTree.function = [p] := by
    rw [← hwaiting.pending, ← hfinishes.pending, hpending]
  obtain ⟨tree, rfl, rfl⟩ := List.map_eq_singleton_iff.mp hone
  have harranged := hwaiting.arranged tree List.mem_cons_self
  have htree : tree.postorder = records := by
    simpa [RecordTree.postorders] using hpostorder
  refine ⟨s, t, u, records, tree, hheader, hrecords, hfinishes, hplaced, rfl, harranged, ?_, htree, ?_⟩
  · exact harranged.childrenFirst (htree ▸ hplaced)
  · rw [← harranged.map_postorder, htree]

/-- A function that returns nothing. -/
def idleFunction (argumentCount : Nat) : Prototype where
  flags := {}
  argumentCount := argumentCount
  framesize := 2
  firstLine := 0
  lineCount := 0
  instructions := [.functionHeader false 2, ⟨.ret0, Opcode.ret0.number, some 0, none, some 1⟩]
  upvalues := []
  complex := []
  numbers := []
  debug := {}

/-- Such a function with two of them as children. -/
def idleParent : Prototype :=
  { idleFunction 0 with
    flags := { hasChildren := true }
    complex := [.child (idleFunction 1), .child (idleFunction 0)] }

/-- The dump of that function. -/
def siblingDump : Bytes :=
  [0x1b, 0x4c, 0x4a, 0x02, 0x02] ++
    [0x0b, 0x00, 0x00, 0x02, 0x00, 0x00, 0x00, 0x01, 0x4b, 0x00, 0x01, 0x00] ++
    [0x0b, 0x00, 0x01, 0x02, 0x00, 0x00, 0x00, 0x01, 0x4b, 0x00, 0x01, 0x00] ++
    [0x0d, 0x01, 0x00, 0x02, 0x00, 0x02, 0x00, 0x01, 0x4b, 0x00, 0x01, 0x00, 0x00, 0x00]

/-- The last constant of the parent is the child that stands first. -/
theorem accepted_tree_holds_siblings :
    (Dump.read .current "siblings" siblingDump).result =
      .ok (some (⟨2, { stripped := true }, "siblings", "siblings"⟩, idleParent)) ∧
    ∃ (records : List PlacedRecord) (tree : RecordTree),
      records.map PlacedRecord.function = [idleFunction 0, idleFunction 1, idleParent] ∧
      records.Pairwise PlacedRecord.Before ∧ tree.function = idleParent ∧ tree.Arranged ∧
      tree.ChildrenFirst ∧ tree.postorder = records := by
  have h : (Dump.read .current "siblings" siblingDump).result =
      .ok (some (⟨2, { stripped := true }, "siblings", "siblings"⟩, idleParent)) := rfl
  obtain ⟨s, t, u, records, tree, -, -, -, hplaced, hroot, harranged, hfirst, hpostorder, hfunctions⟩ :=
    accepted_tree_holds_records h
  exact ⟨h, records, tree, hfunctions.symm, hplaced, hroot, harranged, hfirst, hpostorder⟩

end LuaLift.Proofs
