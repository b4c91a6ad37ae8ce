import LuaLift.Listing.Writer
import LuaLift.Proofs.Descriptions

/-! # Listings

A function that was read from a dump and can be listed is listed to its end. Lines are written
whole, so that none is open between two of them, and what is written as one line has no line
ends: numbers, names of operations and the texts of table constants. -/
namespace LuaLift.Proofs
open Bytecode Dump Listing Text

/-! ## Texts without line ends -/

/-- A text that fits on a line. -/
def OneLine (s : String) : Prop := '\n' ∉ s.toList

instance (s : String) : Decidable (OneLine s) := inferInstanceAs (Decidable (_ ∉ _))

variable {α : Type} {i : Instruction} {p : Prototype} {P Q : Prototype → Prop} {s source separator : String}
  {f : α → Lines Unit}

theorem oneLine_append {t : String} : OneLine (s ++ t) ↔ OneLine s ∧ OneLine t := by
  simp [OneLine]

theorem oneLine_ofList {cs : List Char} : OneLine (String.ofList cs) ↔ '\n' ∉ cs := by
  simp [OneLine]

theorem lineEnd_notMem_digits (n : Nat) : '\n' ∉ Nat.toDigits 10 n := by
  intro h
  have := Nat.isDigit_of_mem_toDigits (by decide) (by decide) h
  exact absurd this (by decide)

theorem oneLine_nat (n : Nat) : OneLine (toString n) := by
  rw [Nat.toString_eq_ofList_toDigits, oneLine_ofList]
  exact lineEnd_notMem_digits n

theorem oneLine_int (n : Int) : OneLine (toString n) := by
  cases n with
  | ofNat n => exact oneLine_nat n
  | negSucc n =>
    exact oneLine_append.mpr ⟨by decide, oneLine_nat (n + 1)⟩

theorem oneLine_replicate {c : Char} (h : c ≠ '\n') (n : Nat) :
    OneLine (String.ofList (List.replicate n c)) := by
  rw [oneLine_ofList]
  intro hmem
  exact h (List.eq_of_mem_replicate hmem).symm

theorem oneLine_intercalate {parts : List String} (hs : OneLine separator)
    (h : ∀ part ∈ parts, OneLine part) : OneLine (separator.intercalate parts) := by
  induction parts with
  | nil => simp [OneLine]
  | cons part parts ih =>
    have hpart := h part List.mem_cons_self
    have hrest := ih fun other hother => h other (List.mem_cons_of_mem _ hother)
    by_cases hnil : parts = []
    · simpa [hnil] using hpart
    · rw [String.intercalate_cons_of_ne_nil hnil, oneLine_append, oneLine_append]
      exact ⟨⟨hpart, hs⟩, hrest⟩

theorem intercalate_ne_empty (h : separator ≠ "") (part other : String) (rest : List String) :
    separator.intercalate (part :: other :: rest) ≠ "" := by
  simp [h]

/-! ## Numbers -/

theorem digits_shortest (m : Nat) (q : Int) (edge : Bool) : '\n' ∉ (shortest m q edge).digits := by
  unfold shortest
  dsimp only
  split
  · intro h
    have := (List.dropWhile_sublist _).subset (List.mem_reverse.mp h)
    exact lineEnd_notMem_digits _ (List.mem_reverse.mp this)
  · decide

theorem oneLine_place (l : Text.Layout) {x : Digits} (h : '\n' ∉ x.digits) : OneLine (l.place x) := by
  have hzeros : ∀ n, OneLine (zeros n) := oneLine_replicate (by decide)
  have htake : ∀ n, '\n' ∉ x.digits.take n := fun n hn => h (List.mem_of_mem_take hn)
  have hdrop : ∀ n, '\n' ∉ x.digits.drop n := fun n hn => h (List.mem_of_mem_drop hn)
  unfold Text.Layout.place
  dsimp only
  split
  · split
    · simp only [oneLine_append, oneLine_ofList, hzeros, h, not_false_eq_true, and_true]
      decide
    · split
      · simp only [oneLine_append, oneLine_ofList, htake, hdrop, not_false_eq_true, true_and, and_true]
        decide
      · simp only [oneLine_append, oneLine_ofList, hzeros, h, not_false_eq_true, true_and]
        decide
  · have hsign : OneLine (if x.point - 1 < 0 then "-" else "+") := by
      split <;> decide
    simp only [oneLine_append, hsign, hzeros, oneLine_nat, and_true]
    refine ⟨?_, by decide⟩
    split
    · rename_i hd
      rw [oneLine_ofList, ← hd]
      exact h
    · rename_i d ds _ hd
      rw [hd] at h
      rw [oneLine_ofList]
      simpa using h
    · decide

theorem oneLine_number (n : Number) : OneLine n.text := by
  have hsign : ∀ negative : Bool, OneLine (if negative = true then "-" else "") := by decide
  cases n with
  | int v => exact oneLine_int v
  | double bits =>
    unfold Number.text Layout.write
    dsimp only
    split
    · decide
    · exact oneLine_append.mpr ⟨hsign _, by decide⟩
    · exact oneLine_append.mpr ⟨hsign _, by decide⟩
    · exact oneLine_append.mpr ⟨hsign _, oneLine_place _ (digits_shortest _ _ _)⟩

/-! ## Writing lines -/

/-- A step that writes whole lines succeeds. -/
def Completes (x : Lines Unit) : Prop :=
  ∀ w : Indented, w.lineOpen = false → ∃ w', x w = .ok () w' ∧ w'.lineOpen = false

theorem completes_pure : Completes (pure ()) := by
  intro w hw
  exact ⟨w, rfl, hw⟩

theorem Completes.bind {x : Lines Unit} {f : Unit → Lines Unit} (hx : Completes x)
    (hf : Completes (f ())) : Completes (x >>= f) := by
  intro w hw
  obtain ⟨w1, h1, hw1⟩ := hx w hw
  obtain ⟨w2, h2, hw2⟩ := hf w1 hw1
  refine ⟨w2, ?_, hw2⟩
  change EStateM.bind x f w = _
  simp [EStateM.bind, h1, h2]

theorem completes_obtain {x : Except Fault α} {a : α} (hx : x = .ok a) (hf : Completes (f a)) :
    Completes (Lines.obtain x >>= f) := by
  subst hx
  exact hf

theorem completes_forM {xs : List α} (h : ∀ x ∈ xs, Completes (f x)) : Completes (xs.forM f) := by
  induction xs with
  | nil => exact completes_pure
  | cons x xs ih =>
    exact (h x List.mem_cons_self).bind (ih fun y hy => h y (List.mem_cons_of_mem _ hy))

theorem write_ok (h : OneLine s) {w : Indented} (hw : w.lineOpen = true) :
    Lines.write (.ok s) w = .ok () { w with text := w.text ++ s } := by
  have hcontains : s.toList.contains '\n' = false := by
    rw [List.contains_eq_mem]
    exact decide_eq_false h
  obtain ⟨text, indent, _⟩ := w
  cases hw
  change (Lines.demand (!s.toList.contains '\n') _ >>= _) _ = _
  rw [hcontains]
  rfl

theorem completes_writeLine (h : OneLine s) : Completes (Lines.writeLine (.ok s)) := by
  intro w hw
  obtain ⟨text, indent, _⟩ := w
  cases hw
  refine ⟨⟨text ++ Lines.tabs indent ++ s ++ "\n", indent, false⟩, ?_, rfl⟩
  change EStateM.bind (Lines.write (.ok s)) (fun _ => Lines.endLine)
    ⟨text ++ Lines.tabs indent, indent, true⟩ = _
  simp only [EStateM.bind, write_ok h]
  rfl

theorem completes_modifyIndent (f : Int → Int) :
    Completes (modify fun w => { w with indent := f w.indent }) := by
  intro w hw
  exact ⟨_, rfl, hw⟩

theorem completes_openBlock (h : OneLine s) : Completes (Lines.openBlock (some (.ok s))) :=
  (completes_writeLine h).bind (completes_modifyIndent (· + 1))

theorem completes_closeBlock (h : OneLine s) : Completes (Lines.closeBlock (some (.ok s))) :=
  (completes_writeLine h).bind (completes_modifyIndent (· - 1))

theorem completes_get {f : Indented → Lines Unit} (h : ∀ w, Completes (f w)) :
    Completes (get >>= f) := by
  intro w hw
  exact h w w hw

theorem completes_put (s : String) : Completes (Lines.put s) := by
  intro w hw
  exact ⟨_, rfl, hw⟩

theorem lines_ne_nil (h : s ≠ "") {lines : List String}
    (hlines : lines = (s.toList.splitOn '\n').map String.ofList) :
    (if lines.head? = some "" then lines.drop 1 else lines) ≠ [] := by
  cases hs : s.toList with
  | nil => exact absurd (String.toList_eq_nil_iff.mp hs) h
  | cons c cs =>
    rw [hs, List.splitOn_cons_eq_if_modifyHead] at hlines
    obtain ⟨first, rest, hrest⟩ := List.exists_cons_of_ne_nil (List.splitOn_ne_nil '\n' cs)
    by_cases hc : c = '\n'
    · simp [hlines, hc, hrest]
    · simp [hlines, hc, hrest]

theorem completes_writeMultiline (h : s ≠ "") : Completes (Lines.writeMultiline (.ok s)) := by
  have hdemand : ∀ {rule : String} {f : Unit → Lines Unit}, Completes (f ()) →
      Completes (get >>= fun w => Lines.demand (!w.lineOpen) rule >>= f) := by
    intro rule f hf w hw
    obtain ⟨w', h', hw'⟩ := hf w hw
    refine ⟨w', ?_, hw'⟩
    change (Lines.demand (!w.lineOpen) rule >>= f) w = _
    rw [hw]
    exact h'
  refine hdemand ?_
  refine completes_obtain rfl ?_
  dsimp only
  split
  · rename_i hlast
    exact absurd (List.getLast?_eq_none_iff.mp hlast) (lines_ne_nil h rfl)
  · exact completes_get fun w => completes_forM fun line _ => completes_put _

/-! ## Parts of a listing -/

theorem oneLine_item {item : TableItem} (h : fitsLine item = true) : OneLine (itemText item) := by
  cases item with
  | nil => decide
  | bool b => cases b <;> decide
  | number n => exact oneLine_number n
  | text s => simpa [fitsLine, itemText, OneLine] using h

theorem completes_writeTable {t : TableConstant} (h : tableFitsLines (.table t) = true) (index : Nat) :
    Completes (writeTable index t) := by
  obtain ⟨harray, hentries⟩ : (∀ item ∈ t.array, fitsLine item = true) ∧
      ∀ entry ∈ t.entries, fitsLine entry.1 = true ∧ fitsLine entry.2 = true := by
    simpa [tableFitsLines] using h
  refine (completes_openBlock ?_).bind ?_
  · simp only [oneLine_append, oneLine_nat, and_true]
    decide
  refine (completes_forM ?_).bind ?_
  · rintro ⟨item, i⟩ hmem
    have hitem := oneLine_item (harray item (List.fst_mem_of_mem_zipIdx hmem))
    dsimp only
    split
    · refine completes_writeLine ?_
      simp only [oneLine_append, oneLine_nat, and_true]
      exact ⟨⟨by decide, hitem⟩, by decide⟩
    · exact completes_pure
  refine (completes_forM ?_).bind ?_
  · rintro ⟨key, value⟩ hmem
    obtain ⟨hkey, hvalue⟩ := hentries _ hmem
    refine completes_writeLine ?_
    simp only [oneLine_append]
    exact ⟨⟨⟨⟨by decide, oneLine_item hkey⟩, by decide⟩, oneLine_item hvalue⟩, by decide⟩
  refine (completes_closeBlock (by decide)).bind ?_
  exact (completes_writeLine (by decide)).bind (completes_writeLine (by decide))

theorem completes_writeTables (hp : Listable p) : Completes (writeTables p) := by
  apply completes_forM
  rintro ⟨c, i⟩ hmem
  have hc := hp.tables c (List.fst_mem_of_mem_zipIdx hmem)
  dsimp only
  split
  · exact completes_writeTable hc i
  · exact completes_pure

theorem oneLine_functionText (h : OneLine source) (p : Prototype) : OneLine (functionText source p) := by
  have hmore : OneLine (if p.flags.isVariadic then "+" else "") := by
    split <;> decide
  unfold functionText
  simp only [oneLine_append, oneLine_nat, and_true]
  exact ⟨⟨⟨⟨⟨⟨h, by decide⟩, by decide⟩, by decide⟩, hmore⟩, by decide⟩, ⟨by decide, by decide⟩,
    by decide⟩

theorem oneLine_instructionLine {address line : Nat} {name words : String} {a b c : Option Int}
    (hname : OneLine name) (hwords : OneLine words) :
    OneLine (instructionLine address line name a b c words) := by
  have hoperand : ∀ o, OneLine (operandText o) := by
    intro o
    cases o with
    | none => decide
    | some v => exact oneLine_int v
  have hblanks : ∀ n, OneLine (String.ofList (List.replicate n ' ')) := oneLine_replicate (by decide)
  refine oneLine_intercalate (by decide) ?_
  simp only [List.forall_mem_cons, List.not_mem_nil, padLeft, padRight, oneLine_append, oneLine_nat,
    hoperand, hblanks, hname, hwords, and_true, true_and, false_implies, implies_true]
  decide

/-! ## Functions and dumps -/

theorem Throughout.mono (h : Throughout P p) (hpq : ∀ q, P q → Q q) : Throughout Q p := by
  induction h with
  | tree hp _ ih => exact .tree (hpq _ hp) ih

theorem Throughout.and (hp : Throughout P p) (hq : Throughout Q p) : Throughout (fun q => P q ∧ Q q) p := by
  induction hp with
  | tree hp _ ih =>
    cases hq with
    | tree hq hchildren => exact .tree ⟨hp, hq⟩ fun q hmem => ih q hmem (hchildren q hmem)

theorem childOf_ok (hi : Shown p i) (hop : i.op = .fnew) :
    ∃ q, Listing.childOf p i = .ok q ∧ .child q ∈ p.complex := by
  obtain ⟨v, hv, hshown⟩ := hi.cd .proto (by simp [Instruction.shape, hop, Opcode.shape])
  obtain ⟨q, hq, hmem⟩ := child_of_fits hshown
  refine ⟨q, ?_, hmem⟩
  simp [Listing.childOf, hv, present_some, element_of_at? hq, bind, Except.bind, pure, Except.pure]

theorem completes_writeInstruction (hp : Listable p) (hd : Decoded p) (hi : Shown p i) (address : Nat) :
    Completes (writeInstruction p address i) := by
  obtain ⟨words, hwords⟩ := description_ok address hp hd hi
  exact completes_obtain hwords (completes_writeMultiline (intercalate_ne_empty (by decide) _ _ _))

theorem completes_writeBody (hsource : OneLine source) (h : Throughout (fun q => Listable q ∧ Decoded q) p)
    (depth : Nat) : Completes (writeBody source depth p) := by
  induction h generalizing depth with
  | @tree p hp _ ih =>
    obtain ⟨hp, hd⟩ := hp
    cases depth with
    | zero => exact completes_pure
    | succ depth =>
      refine (completes_writeLine (by decide)).bind ?_
      refine (completes_writeTables hp).bind ?_
      refine (completes_writeLine (by decide)).bind ?_
      apply completes_forM
      rintro ⟨i, address⟩ hmem
      dsimp only
      split
      · exact completes_pure
      · rename_i haddress
        have hi : Shown p i := by
          apply hp.shown hd
          obtain ⟨k, rfl⟩ := Nat.exists_eq_add_one_of_ne_zero haddress
          apply List.mem_of_getElem? (i := k)
          rw [List.getElem?_drop, Nat.add_comm]
          exact List.mem_zipIdx_iff_getElem?.mp hmem
        split
        · rename_i hfnew
          have hop : i.op = .fnew := by simpa [hi.meaning] using hfnew
          obtain ⟨q, hq, hchild⟩ := childOf_ok hi hop
          obtain ⟨a, ha⟩ := hi.exists_a hop rfl
          refine completes_obtain hq ?_
          rw [ha]
          refine (completes_openBlock ?_).bind ?_
          · exact oneLine_instructionLine (by decide) (oneLine_functionText hsource q)
          refine (completes_writeLine (by decide)).bind ?_
          exact (ih q hchild depth).bind (completes_modifyIndent (· - 1))
        · exact completes_writeInstruction hp hd hi address

theorem completes_write {header : Header} (hsource : OneLine (sourceOf header))
    (h : Throughout (fun q => Listable q ∧ Decoded q) p) : Completes (Listing.write header p) := by
  have hheader : headerText header ≠ "" := intercalate_ne_empty (by decide) _ _ _
  refine (completes_writeMultiline hheader).bind ?_
  refine (completes_openBlock ?_).bind ?_
  · exact oneLine_append.mpr ⟨by decide, oneLine_functionText hsource p⟩
  · exact (completes_writeBody hsource h _).bind (completes_closeBlock (by decide))

/-- The listing of a dump that is accepted and whose functions can be listed is complete, and
the search for the name of a slot ends at every address of every function, with a name or
without one. -/
theorem listing_completes {origin : String} {bytes : Bytes} {header : Header} {p : Prototype}
    (hread : (Dump.read .current origin bytes).result = .ok (some (header, p)))
    (hsource : OneLine (sourceOf header)) (hp : Throughout Listable p) :
    (Listing.text header p).2 = none ∧ Throughout (fun q => ∀ address slot,
      ∃ name, HasName q address slot name ∧ ∀ fuel, address < fuel →
        nameFrom q fuel address slot = .ok (name.map .text)) p := by
  have hboth := hp.and (accepted_decoded hread)
  constructor
  · have hwrite := completes_write hsource hboth {} rfl
    obtain ⟨w, hw, -⟩ := hwrite
    unfold Listing.text EStateM.run
    rw [hw]
  · refine hboth.mono fun q hq address slot => ?_
    obtain ⟨name, hname⟩ := exists_hasName hq.1 hq.2 address slot
    exact ⟨name, hname, fun fuel hfuel => hname.nameFrom hfuel⟩

/-- A function that reads a field of its upvalue, copies it and joins the two. -/
def fieldTwice : Prototype :=
  { ofCode [withAD .uget 0 0, withABC .tgets 1 0 0, withAD .mov 2 1, withABC .cat 0 1 2,
      withAD .ret1 0 2] with
    firstLine := 1, lineCount := 1, upvalues := [0xc000], complex := [.text "x"]
    debug := ⟨[0, 2, 2, 2, 2, 2], ["t"], []⟩ }

/-- A function with a table constant that calls the function inside. -/
def callsFieldTwice : Prototype :=
  { ofCode [withAD .tdup 0 0, withAD .knil 1 2, withAD .fnew 1 1, withABC .call 1 2 1,
      withAD .ret1 1 2] with
    flags := { hasChildren := true }, firstLine := 1, lineCount := 3
    complex := [.table ⟨[.number (.int 7)], []⟩, .child fieldTwice]
    debug := ⟨[0, 1, 1, 2, 2, 3], [], [⟨"t", .visible, 1, 6⟩]⟩ }

/-- The dump of this function. -/
def callsFieldTwiceDump : Bytes :=
  [0x1b, 0x4c, 0x4a, 0x02, 0x00, 0x02, 0x40, 0x66] ++
    [0x2a, 0x00, 0x00, 0x08, 0x01, 0x01, 0x00, 0x05, 0x08, 0x01, 0x01, 0x2d, 0x00, 0x00, 0x00,
      0x39, 0x01, 0x00, 0x00, 0x12, 0x02, 0x01, 0x00, 0x26, 0x00, 0x02, 0x01, 0x4c, 0x00, 0x02,
      0x00, 0x00, 0xc0, 0x06, 0x78, 0x01, 0x01, 0x01, 0x01, 0x01, 0x74, 0x00, 0x00] ++
    [0x2e, 0x01, 0x00, 0x08, 0x00, 0x02, 0x00, 0x05, 0x0a, 0x01, 0x03, 0x35, 0x00, 0x01, 0x00,
      0x2c, 0x01, 0x02, 0x00, 0x33, 0x01, 0x00, 0x00, 0x42, 0x01, 0x01, 0x02, 0x4c, 0x01, 0x02,
      0x00, 0x01, 0x01, 0x00, 0x03, 0x07, 0x00, 0x00, 0x00, 0x01, 0x01, 0x02, 0x74, 0x00, 0x01,
      0x05, 0x00] ++ [0x00]

def namedHeader : Header := ⟨2, {}, "f.out", "@f"⟩

/-- The listing of this dump is complete, with the name of a copied field at address 4 of the
function inside. -/
theorem listing_completes_fieldTwice :
    (Dump.read .current "f.out" callsFieldTwiceDump).result =
      .ok (some (namedHeader, callsFieldTwice)) ∧
    OneLine (sourceOf namedHeader) ∧ Throughout Listable callsFieldTwice ∧
    (Listing.text namedHeader callsFieldTwice).2 = none ∧
    nameFrom fieldTwice 5 4 2 = .ok (some (.text "uv0\"t\".x")) := by
  have hread : (Dump.read .current "f.out" callsFieldTwiceDump).result =
      .ok (some (namedHeader, callsFieldTwice)) := by rfl
  have hsource : OneLine (sourceOf namedHeader) := by decide
  have hp : Throughout Listable callsFieldTwice := by
    refine .tree (by decide) fun q hq => ?_
    obtain rfl : q = fieldTwice := by simpa [callsFieldTwice] using hq
    exact .tree (by decide) fun q hq => by simp [fieldTwice] at hq
  exact ⟨hread, hsource, hp, (listing_completes hread hsource hp).1, by decide⟩

/-- A function that returns an upvalue, in a dump without names. -/
def unnamedUpvalue : Prototype :=
  { ofCode [withAD .uget 0 0, withAD .ret1 0 2] with upvalues := [0x8000] }

def unnamedUpvalueDump : Bytes :=
  [0x1b, 0x4c, 0x4a, 0x02, 0x02, 0x11, 0x00, 0x00, 0x08, 0x01, 0x00, 0x00, 0x02, 0x2d, 0x00, 0x00,
    0x00, 0x4c, 0x00, 0x02, 0x00, 0x00, 0x80, 0x00]

/-- A field of a table that was copied from another slot. -/
def copiedTable : Prototype :=
  { ofCode [withAD .mov 1 0, withABC .tgets 2 1 0, withAD .ret1 2 2] with complex := [.text "x"] }

def copiedTableDump : Bytes :=
  [0x1b, 0x4c, 0x4a, 0x02, 0x02, 0x15, 0x00, 0x00, 0x08, 0x00, 0x01, 0x00, 0x03, 0x12, 0x01, 0x00,
    0x00, 0x39, 0x02, 0x00, 0x01, 0x4c, 0x02, 0x02, 0x00, 0x06, 0x78, 0x00]

/-- A concatenation of slots that are counted down. -/
def backwardRange : Prototype := ofCode [withABC .cat 0 2 0, withAD .ret1 0 2]

def backwardRangeDump : Bytes :=
  [0x1b, 0x4c, 0x4a, 0x02, 0x02, 0x0f, 0x00, 0x00, 0x08, 0x00, 0x00, 0x00, 0x02, 0x26, 0x00, 0x00,
    0x02, 0x4c, 0x00, 0x02, 0x00, 0x00]

def strippedHeader : Header := ⟨2, { stripped := true }, "f.out", "f.out"⟩

/-- A dump is accepted, the constants of its function are there and its upvalues are those of
the function, but the listing ends early. -/
def StopsEarly (bytes : Bytes) (p : Prototype) (fault : Fault) : Prop :=
  (Dump.read .current "f.out" bytes).result = .ok (some (strippedHeader, p)) ∧
    (∀ i ∈ p.instructions.drop 1, Legible p i) ∧
    (∀ i ∈ p.instructions.drop 1, i.shape.cd = some .upvalue → ∀ v ∈ i.cd, v < p.upvalues.length) ∧
    (Listing.text strippedHeader p).2 = some fault

/-- A listing ends early at an upvalue without a name, at the field of a table that was copied
and at a range that never reaches its end. -/
theorem listing_stops_early :
    StopsEarly unnamedUpvalueDump unnamedUpvalue .illTyped ∧
    StopsEarly copiedTableDump copiedTable .illTyped ∧
    StopsEarly backwardRangeDump backwardRange .tooDeep :=
  ⟨⟨rfl, by decide, by decide, by decide +kernel⟩, ⟨rfl, by decide, by decide, by decide +kernel⟩,
    ⟨rfl, by decide, by decide, by decide +kernel⟩⟩

end LuaLift.Proofs
