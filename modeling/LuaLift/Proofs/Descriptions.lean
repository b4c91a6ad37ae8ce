import LuaLift.Listing.Description
import LuaLift.Proofs.NameSearch

/-! # Descriptions of instructions

Every instruction of a function that can be listed has a description: its operands have labels,
and the labels fill all holes of the text. -/
namespace LuaLift.Proofs
open Bytecode Listing

variable {p : Prototype} {i : Instruction} (address : Nat)

theorem exists_mapM {α β : Type} {f : α → Except Fault β} {Q : β → Prop} {xs : List α}
    (h : ∀ x ∈ xs, ∃ y, f x = .ok y ∧ Q y) : ∃ ys, xs.mapM f = .ok ys ∧ ∀ y ∈ ys, Q y := by
  induction xs with
  | nil => exact ⟨[], rfl, by simp⟩
  | cons x xs ih =>
    obtain ⟨y, hy, hq⟩ := h x List.mem_cons_self
    obtain ⟨ys, hys, hall⟩ := ih fun z hz => h z (List.mem_cons_of_mem _ hz)
    refine ⟨y :: ys, ?_, by simpa using ⟨hq, hall⟩⟩
    rw [List.mapM_cons, hy]
    simp [bind, Except.bind, hys, pure, Except.pure]

/-! ## Labels -/

/-- A label that is text. -/
def isText : Label → Prop
  | .text _ => True
  | _ => False

section
variable (hp : Listable p) (hd : Decoded p)
include hp hd

theorem operandLabel_ok {v : Int} {kind : OperandKind}
    (h : operandShown p (some kind) (some v) = true) :
    ∃ s, operandLabel p address v kind = .ok (.text s) := by
  cases kind with
  | var => exact slotLabel_ok hp hd address v
  | upvalue =>
    obtain ⟨s, hs⟩ := upvalue_of_shown h
    exact ⟨s, by simp [operandLabel, hs, bind, Except.bind, pure, Except.pure]⟩
  | primitive =>
    simp only [operandShown, valueFits, Bool.and_eq_true, decide_eq_true_eq] at h
    obtain rfl | rfl | rfl : v = 0 ∨ v = 1 ∨ v = 2 := by omega
    all_goals exact ⟨_, rfl⟩
  | number =>
    obtain ⟨n, hn⟩ := number_of_fits h
    exact ⟨n.text, by simp [operandLabel, element_of_at? hn, bind, Except.bind, pure, Except.pure]⟩
  | text =>
    obtain ⟨s, hs⟩ := text_of_fits h
    exact ⟨_, by simp only [operandLabel, element_of_at? hs, bind, Except.bind]; rfl⟩
  | cdata =>
    obtain ⟨c, hc, -⟩ := complex_of_fits (.inr (.inr (.inr rfl))) h
    exact ⟨constantText c, by simp [operandLabel, element_of_at? hc, bind, Except.bind, pure, Except.pure]⟩
  | _ => exact ⟨_, rfl⟩

theorem operandIf_ok {value : Option Int} {kind? : Option OperandKind} (h : ∀ kind, kind? = some kind →
      ∃ v, value = some v ∧ operandShown p (some kind) (some v) = true) :
    ∃ l, operandIf p address value kind? = .ok l ∧ (kind?.isSome → isText l) := by
  cases kind? with
  | none => exact ⟨.absent, rfl, by simp⟩
  | some kind =>
    obtain ⟨v, rfl, hv⟩ := h kind rfl
    obtain ⟨s, hs⟩ := operandLabel_ok address hp hd hv
    exact ⟨.text s, hs, fun _ => trivial⟩

theorem operandLabels_ok (hi : Shown p i) :
    ∃ a b cd, operandLabels p address i = .ok (a, b, cd) ∧ (i.shape.cd.isSome → isText cd) := by
  obtain ⟨a, ha, -⟩ := operandIf_ok address hp hd hi.a
  obtain ⟨b, hb, -⟩ := operandIf_ok address hp hd hi.b
  obtain ⟨cd, hcd, htext⟩ := operandIf_ok address hp hd hi.cd
  exact ⟨a, b, cd, by simp [operandLabels, ha, hb, hcd, bind, Except.bind, pure, Except.pure], htext⟩

theorem slotLabels_ok (first count : Int) :
    ∃ ls, slotLabels p address first count = .ok ls ∧ ∀ l ∈ ls, isText l := by
  apply exists_mapM
  intro k _
  obtain ⟨s, hs⟩ := slotLabel_ok hp hd address (first + k)
  exact ⟨.text s, hs, trivial⟩

theorem slotRange_ok {first last : Int} (h : first ≤ last + 1) :
    ∃ ls, slotRange p address first last = .ok ls ∧ ∀ l ∈ ls, isText l := by
  unfold slotRange
  rw [if_neg (by omega)]
  exact slotLabels_ok address hp hd first _

end

theorem isText_slotNumbers (first count : Int) : ∀ l ∈ slotNumbers first count, isText l := by
  intro l hl
  obtain ⟨k, -, rfl⟩ := List.mem_map.mp hl
  trivial

theorem joined_ok {ls : List Label} (separator : String) (h : ∀ l ∈ ls, isText l) :
    ∃ s, joined separator ls = .ok (.text s) := by
  have htexts : ∃ ts, ls.mapM Label.asText = .ok ts ∧ ∀ t ∈ ts, True := by
    apply exists_mapM
    intro l hl
    cases l with
    | text s => exact ⟨s, rfl, trivial⟩
    | absent => exact (h _ hl).elim
    | constant s => exact (h _ hl).elim
  obtain ⟨ts, hts, -⟩ := htexts
  exact ⟨separator.intercalate ts, by simp [joined, hts, bind, Except.bind, pure, Except.pure]⟩

theorem resultsLabel_ok (first count : Int) : ∃ s, resultsLabel first count = .ok (.text s) := by
  unfold resultsLabel
  split
  · exact joined_ok ", " (isText_slotNumbers first count)
  · exact ⟨_, rfl⟩

/-! ## Holes -/

/-- The holes that are filled for an operation. -/
def filledHoles : Opcode → List Hole
  | .cat => [.a, .joinedBToC]
  | .knil => [.fromAToD]
  | .tnew => [.a, .arraySize, .hashSize]
  | .tgets | .tsets => [.a, .b, .c]
  | .tsetm => [.aLess1, .a, .dLow]
  | .callm => [.a, .results, .openArguments]
  | .call => [.a, .results, .arguments]
  | .callmt => [.a, .openTailArguments]
  | .callt => [.a, .tailArguments]
  | .iterc | .itern => [.a, .aPlus1, .aPlus2, .aLess3, .aLess2, .aLess1, .results]
  | .varg => [.results]
  | .retm => [.openReturns]
  | .ret => [.returns]
  | .ret1 => [.a]
  | .fori | .jfori => [.a, .aPlus1, .aPlus2, .aPlus3, .d]
  | .forl | .iforl | .jforl => [.a, .aPlus1, .aPlus2, .d]
  | .iterl | .iiterl | .jiterl => [.aLess1, .a, .d]
  | _ => [.a, .b, .c, .d]

variable {base given results distance : Int} {op : Opcode}

theorem holes_filled {hole : Hole} (h : .hole hole ∈ op.shape.description) : hole ∈ filledHoles op := by
  revert hole
  cases op <;> simp [Opcode.shape, filledHoles]

theorem describe_ok {pieces : List Piece} {fs : Fillings}
    (h : ∀ hole, .hole hole ∈ pieces → hole ∈ fs.map Prod.fst) : ∃ s, describe pieces fs = .ok s := by
  have hjoin : ∀ {f : Piece → Except Fault String}, (∀ piece ∈ pieces, ∃ s, f piece = .ok s ∧ True) →
      ∃ s, (do return String.join (← pieces.mapM f)) = Except.ok s := by
    intro f hf
    obtain ⟨parts, hok, -⟩ := exists_mapM hf
    exact ⟨String.join parts, by rw [hok]; rfl⟩
  refine hjoin fun piece hpiece => ?_
  cases piece with
  | text s => exact ⟨s, rfl, trivial⟩
  | hole hole =>
    cases hlookup : fs.lookup hole with
    | some l => exact ⟨l.plain, by simp [hlookup, pure, Except.pure], trivial⟩
    | none =>
      obtain ⟨f, hf, rfl⟩ := List.mem_map.mp (h hole hpiece)
      have := List.lookup_eq_none_iff.mp hlookup f hf
      simp at this

/-- Labels for some holes have been found. -/
def Fills (x : Except Fault Fillings) (holes : List Hole) : Prop :=
  ∃ fs, x = .ok fs ∧ fs.map Prod.fst = holes

/-! ## Kinds of instructions -/

theorem Shown.exists_a (hi : Shown p i) (hop : i.op = op) (h : op.shape.a.isSome = true) :
    ∃ v, i.a = some v := by
  subst hop
  obtain ⟨kind, hkind⟩ := Option.isSome_iff_exists.mp h
  obtain ⟨v, hv, -⟩ := hi.a kind hkind
  exact ⟨v, hv⟩

theorem Shown.exists_b (hi : Shown p i) (hop : i.op = op) (h : op.shape.b.isSome = true) :
    ∃ v, i.b = some v := by
  subst hop
  obtain ⟨kind, hkind⟩ := Option.isSome_iff_exists.mp h
  obtain ⟨v, hv, -⟩ := hi.b kind hkind
  exact ⟨v, hv⟩

theorem Shown.exists_cd (hi : Shown p i) (hop : i.op = op) (h : op.shape.cd.isSome = true) :
    ∃ v, i.cd = some v := by
  subst hop
  obtain ⟨kind, hkind⟩ := Option.isSome_iff_exists.mp h
  obtain ⟨v, hv, -⟩ := hi.cd kind hkind
  exact ⟨v, hv⟩

theorem fills_vararg (ha : i.a = some base) (hb : i.b = some results) :
    Fills (varargFillings i) [.results] := by
  obtain ⟨s, hs⟩ := joined_ok ", " (isText_slotNumbers base (results - 1))
  unfold varargFillings
  simp only [ha, hb, present_some, hs, bind, Except.bind]
  split
  · exact ⟨_, rfl, rfl⟩
  · exact ⟨_, rfl, rfl⟩

section
variable (hp : Listable p) (hd : Decoded p)
include hp hd

theorem fills_call (ha : i.a = some base) (hb : i.b = some results) (hcd : i.cd = some given) (hole : Hole)
    (open_ : Bool) : Fills (callFillings p address i hole open_) [.a, .results, hole] := by
  obtain ⟨arguments, harguments, htexts⟩ := slotLabels_ok address hp hd (base + 1)
    (if open_ then given else given - 1)
  obtain ⟨callee, hcallee⟩ := slotLabel_ok hp hd address base
  obtain ⟨r, hr⟩ := resultsLabel_ok base (results - 1)
  obtain ⟨s, hs⟩ := joined_ok ", " htexts
  refine ⟨[(.a, .text callee), (.results, .text r), (hole, .text s)], ?_, rfl⟩
  simp [callFillings, ha, hb, hcd, present_some, harguments, hcallee, hr, hs, bind, Except.bind,
    pure, Except.pure]

theorem fills_tailCall (ha : i.a = some base) (hcd : i.cd = some given) (hole : Hole) :
    Fills (tailCallFillings p address i hole) [.a, hole] := by
  obtain ⟨arguments, harguments, htexts⟩ :=
    slotLabels_ok address hp hd (base + 1) (given - 1)
  obtain ⟨callee, hcallee⟩ := slotLabel_ok hp hd address base
  obtain ⟨s, hs⟩ := joined_ok ", " htexts
  refine ⟨[(.a, .text callee), (hole, .text s)], ?_, rfl⟩
  simp [tailCallFillings, ha, hcd, present_some, harguments, hcallee, hs, bind, Except.bind,
    pure, Except.pure]

theorem fills_iterator (ha : i.a = some base) (hb : i.b = some results) :
    Fills (iteratorFillings p address i)
      [.a, .aPlus1, .aPlus2, .aLess3, .aLess2, .aLess1, .results] := by
  obtain ⟨less3, h3⟩ := slotLabel_ok hp hd address (base - 3)
  obtain ⟨less2, h2⟩ := slotLabel_ok hp hd address (base - 2)
  obtain ⟨less1, h1⟩ := slotLabel_ok hp hd address (base - 1)
  obtain ⟨s, hs⟩ := joined_ok ", " (isText_slotNumbers base (results - 1))
  unfold iteratorFillings
  simp only [ha, hb, present_some, h3, h2, h1, hs, bind, Except.bind]
  exact ⟨_, rfl, rfl⟩

theorem fills_forInit (ha : i.a = some base) (hcd : i.cd = some distance) :
    Fills (forInitFillings p address i) [.a, .aPlus1, .aPlus2, .aPlus3, .d] := by
  obtain ⟨index, hindex⟩ := slotLabel_ok hp hd address (base + 3)
  unfold forInitFillings
  simp only [ha, hcd, present_some, hindex, bind, Except.bind]
  exact ⟨_, rfl, rfl⟩

theorem fills_forLoop (ha : i.a = some base) (hcd : i.cd = some distance) :
    Fills (forLoopFillings p address i) [.a, .aPlus1, .aPlus2, .d] := by
  obtain ⟨limit, hlimit⟩ := slotLabel_ok hp hd address (base + 1)
  obtain ⟨step, hstep⟩ := slotLabel_ok hp hd address (base + 2)
  obtain ⟨index, hindex⟩ := slotLabel_ok hp hd address (base + 3)
  unfold forLoopFillings
  simp only [ha, hcd, present_some, hlimit, hstep, hindex, bind, Except.bind]
  exact ⟨_, rfl, rfl⟩

theorem fills_iterLoop (ha : i.a = some base) (hcd : i.cd = some distance) :
    Fills (iterLoopFillings p address i) [.aLess1, .a, .d] := by
  obtain ⟨control, hcontrol⟩ := slotLabel_ok hp hd address (base - 1)
  obtain ⟨first, hfirst⟩ := slotLabel_ok hp hd address base
  unfold iterLoopFillings
  simp only [ha, hcd, present_some, hcontrol, hfirst, bind, Except.bind]
  exact ⟨_, rfl, rfl⟩

variable (hi : Shown p i)
include hi

theorem fills_plain : Fills (plainFillings p address i) [.a, .b, .c, .d] := by
  obtain ⟨a, b, cd, h, -⟩ := operandLabels_ok address hp hd hi
  exact ⟨_, by simp only [plainFillings, h, bind, Except.bind]; rfl, rfl⟩

theorem fills_field (hcd : i.shape.cd.isSome) : Fills (fieldFillings p address i) [.a, .b, .c] := by
  obtain ⟨a, b, cd, h, htext⟩ := operandLabels_ok address hp hd hi
  cases cd with
  | text s => exact ⟨_, by simp only [fieldFillings, h, bind, Except.bind]; rfl, rfl⟩
  | absent => exact (htext hcd).elim
  | constant s => exact (htext hcd).elim

theorem fills_newTable {size : Int} (ha : i.a = some base) (hcd : i.cd = some size) :
    Fills (newTableFillings p address i) [.a, .arraySize, .hashSize] := by
  obtain ⟨a, hlabel, -⟩ := operandIf_ok address hp hd hi.a
  rw [ha] at hlabel
  unfold newTableFillings
  simp only [ha, hcd, present_some, hlabel, bind, Except.bind]
  exact ⟨_, rfl, rfl⟩

theorem fillings_ok : Fills (fillings p address i) (filledHoles i.op) := by
  have hlisted := hi.listed
  have hforward := hi.forward
  unfold fillings
  rw [hi.meaning]
  cases hop : i.op with
  | istype | isnum | tgetr | tsetr | unknw => simp [isListed, hop] at hlisted
  | cat =>
    obtain ⟨a, ha⟩ := hi.exists_a hop rfl
    obtain ⟨first, hb⟩ := hi.exists_b hop rfl
    obtain ⟨last, hcd⟩ := hi.exists_cd hop rfl
    obtain ⟨label, hlabel, -⟩ := operandIf_ok address hp hd hi.a
    rw [ha] at hlabel
    simp only [runsForward, hop, hb, hcd, decide_eq_true_eq] at hforward
    obtain ⟨parts, hparts, htexts⟩ := slotRange_ok address hp hd hforward
    obtain ⟨s, hs⟩ := joined_ok " .. " htexts
    simp only [ha, hb, hcd, present_some, hlabel, hparts, hs, bind, Except.bind]
    exact ⟨_, rfl, rfl⟩
  | knil =>
    obtain ⟨first, ha⟩ := hi.exists_a hop rfl
    obtain ⟨last, hcd⟩ := hi.exists_cd hop rfl
    simp only [runsForward, hop, ha, hcd, decide_eq_true_eq] at hforward
    obtain ⟨parts, hparts, htexts⟩ := slotRange_ok address hp hd hforward
    obtain ⟨s, hs⟩ := joined_ok ", " htexts
    simp only [ha, hcd, present_some, hparts, hs, bind, Except.bind]
    exact ⟨_, rfl, rfl⟩
  | tnew =>
    obtain ⟨a, ha⟩ := hi.exists_a hop rfl
    obtain ⟨size, hcd⟩ := hi.exists_cd hop rfl
    exact fills_newTable address hp hd hi ha hcd
  | tgets | tsets => exact fills_field address hp hd hi (by simp [Instruction.shape, hop, Opcode.shape])
  | tsetm =>
    obtain ⟨base, ha⟩ := hi.exists_a hop rfl
    obtain ⟨first, hcd⟩ := hi.exists_cd hop rfl
    obtain ⟨table, htable⟩ := slotLabel_ok hp hd address (base - 1)
    simp only [ha, hcd, present_some, htable, bind, Except.bind]
    exact ⟨_, rfl, rfl⟩
  | callm | call =>
    obtain ⟨base, ha⟩ := hi.exists_a hop rfl
    obtain ⟨results, hb⟩ := hi.exists_b hop rfl
    obtain ⟨given, hcd⟩ := hi.exists_cd hop rfl
    exact fills_call address hp hd ha hb hcd _ _
  | callmt | callt =>
    obtain ⟨base, ha⟩ := hi.exists_a hop rfl
    obtain ⟨given, hcd⟩ := hi.exists_cd hop rfl
    exact fills_tailCall address hp hd ha hcd _
  | iterc | itern =>
    obtain ⟨base, ha⟩ := hi.exists_a hop rfl
    obtain ⟨results, hb⟩ := hi.exists_b hop rfl
    exact fills_iterator address hp hd ha hb
  | varg =>
    obtain ⟨base, ha⟩ := hi.exists_a hop rfl
    obtain ⟨results, hb⟩ := hi.exists_b hop rfl
    exact fills_vararg ha hb
  | retm =>
    obtain ⟨base, ha⟩ := hi.exists_a hop rfl
    obtain ⟨count, hcd⟩ := hi.exists_cd hop rfl
    obtain ⟨labels, hlabels, htexts⟩ := slotLabels_ok address hp hd base (count - 1)
    obtain ⟨s, hs⟩ := joined_ok ", " htexts
    simp only [ha, hcd, present_some, hlabels, hs, bind, Except.bind]
    exact ⟨_, rfl, rfl⟩
  | ret =>
    obtain ⟨base, ha⟩ := hi.exists_a hop rfl
    obtain ⟨count, hcd⟩ := hi.exists_cd hop rfl
    obtain ⟨labels, hlabels, htexts⟩ := slotLabels_ok address hp hd base (count - 2)
    obtain ⟨s, hs⟩ := joined_ok ", " htexts
    simp only [ha, hcd, present_some, hlabels, hs, bind, Except.bind]
    exact ⟨_, rfl, rfl⟩
  | ret1 =>
    obtain ⟨base, ha⟩ := hi.exists_a hop rfl
    obtain ⟨s, hs⟩ := slotLabel_ok hp hd address base
    simp only [ha, present_some, hs, bind, Except.bind]
    exact ⟨_, rfl, rfl⟩
  | fori | jfori =>
    obtain ⟨base, ha⟩ := hi.exists_a hop rfl
    obtain ⟨distance, hcd⟩ := hi.exists_cd hop rfl
    exact fills_forInit address hp hd ha hcd
  | forl | iforl | jforl =>
    obtain ⟨base, ha⟩ := hi.exists_a hop rfl
    obtain ⟨distance, hcd⟩ := hi.exists_cd hop rfl
    exact fills_forLoop address hp hd ha hcd
  | iterl | iiterl | jiterl =>
    obtain ⟨base, ha⟩ := hi.exists_a hop rfl
    obtain ⟨distance, hcd⟩ := hi.exists_cd hop rfl
    exact fills_iterLoop address hp hd ha hcd
  | _ => exact fills_plain address hp hd hi

theorem description_ok : ∃ s, description p address i = .ok s := by
  obtain ⟨fs, hfs, hholes⟩ := fillings_ok address hp hd hi
  have hall : ∀ hole, .hole hole ∈ i.shape.description → hole ∈ fs.map Prod.fst := by
    intro hole hmem
    rw [hholes]
    exact holes_filled hmem
  obtain ⟨s, hs⟩ := describe_ok hall
  exact ⟨s, by simp [description, hfs, hs, bind, Except.bind]⟩

end

end LuaLift.Proofs
