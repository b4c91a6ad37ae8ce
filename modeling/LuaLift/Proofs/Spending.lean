import Mathlib.Algebra.BigOperators.Group.List.Basic
import LuaLift.Proofs.RecordTrees

/-! # What a dump can hold

The counts in a dump are numbers of any size, but every item that is read takes bytes of its own
(`Spends`), so that what is read is no larger than the dump. The one reader that can succeed without
a byte is that of a text at the end of the dump, and what follows it then fails. The loops over
records and over variables have no count; they end because each round takes a byte. -/
namespace LuaLift.Proofs
open Bytecode Dump

variable {α β : Type} {r : Read α} {f : α → Read β} {cost : α → Nat} {more : Bool} {s t : Source}

/-- A reader that succeeds has read as many bytes as `cost` says, or more. If `more` is set, this
is promised only when it leaves some bytes. -/
def SpendsIf (more : Bool) (cost : α → Nat) (r : Read α) : Prop :=
  ∀ ⦃s t : Source⦄ ⦃a : α⦄, r s = .ok a t → (more = true → t.rest ≠ []) →
    cost a + t.rest.length ≤ s.rest.length

abbrev Spends (cost : α → Nat) (r : Read α) : Prop := SpendsIf false cost r

theorem Spends.length_le {a : α} (h : Spends cost r) (hr : r s = .ok a t) :
    cost a + t.rest.length ≤ s.rest.length := h hr nofun

theorem LocalIf.spendsIf (h : LocalIf more r) : SpendsIf more (fun _ => 0) r := by
  intro s t a hr hmore
  obtain ⟨used, hused⟩ := h hr hmore
  simp [hused.rest]

theorem Local.spends (h : Local r) (hneeds : NeedsInput r) : Spends (fun _ => 1) r := by
  intro s t a hr _
  obtain ⟨used, hused⟩ := h.consumes hr
  have hpos := List.length_pos_iff.mpr (hused.ne_nil hneeds)
  rw [hused.rest, List.length_append]
  exact Nat.add_le_add_right hpos _

theorem SpendsIf.bind {cost' : β → Nat} (h : SpendsIf more cost r)
    (h' : ∀ a, SpendsIf more (fun b => cost' b - cost a) (f a)) : SpendsIf more cost' (r >>= f) := by
  intro s t b hr hmore
  obtain ⟨a, m, hfirst, hsecond⟩ := ok_of_bind hr
  have hrest : cost' b - cost a + t.rest.length ≤ m.rest.length := h' a hsecond hmore
  have hstart := h hfirst fun hm hnil => hmore hm (List.eq_nil_of_length_eq_zero (by simp_all))
  omega

theorem spends_pure {a : α} (h : cost a = 0) : SpendsIf more cost (pure a) := by
  intro s t b hr _
  cases hr
  simp [h]

theorem SpendsIf.times (h : SpendsIf more cost r) (n : Nat) :
    SpendsIf more (fun xs => (xs.map cost).sum) (Read.times n r) := by
  induction n with
  | zero => exact spends_pure rfl
  | succ n ih => exact h.bind fun x => ih.bind fun xs => spends_pure (by simp)

theorem SpendsIf.weaken {cost' : α → Nat} (h : SpendsIf more cost r) (hc : ∀ a, cost' a ≤ cost a) :
    SpendsIf more cost' r := fun _ _ a hr hmore =>
  Nat.le_trans (Nat.add_le_add_right (hc a) _) (h hr hmore)

/-! ## Parts of a record -/

theorem spends_uleb : Spends (fun _ => 1) Read.uleb := local_uleb.spends needsInput_uleb

theorem spends_uint (n : Nat) : Spends (fun _ => n) (Read.uint n) := by
  intro s t v hr _
  obtain ⟨bs, rfl, hrest, -⟩ := uint_ok_iff.mp hr
  rw [hrest, List.length_append]

/-- A text that is not ended by the end of the dump has the zero byte behind it. -/
theorem spends_zeroTerminated : SpendsIf true (fun _ => 1) Read.zeroTerminated := by
  intro s t bs hr hmore
  have ht : t.rest = (s.rest.dropWhile (· != 0)).drop 1 := by
    change EStateM.Result.ok (s.rest.span (· != 0)).1
      { s with rest := (s.rest.span (· != 0)).2.drop 1 } = .ok bs t at hr
    rw [List.span_eq_takeWhile_dropWhile] at hr
    cases hr
    rfl
  have hdrop := (List.dropWhile_sublist (· != 0) (l := s.rest)).length_le
  have hpos := List.length_pos_iff.mpr (hmore rfl)
  rw [ht, List.length_drop] at hpos ⊢
  change 1 + _ ≤ _
  omega

theorem spends_tableItem : Spends (fun _ => 1) readTableItem := local_tableItem.spends needsInput_uleb.bind

/-- The items of a table constant, keys and values counted separately. -/
def itemCount : Complex Prototype → Nat
  | .table t => t.array.length + 2 * t.entries.length
  | _ => 0

theorem spends_table : Spends (fun t => t.array.length + 2 * t.entries.length) readTable := by
  have hentry : Spends (fun _ => 2) (do
      let key ← readTableItem
      let value ← readTableItem
      return (key, value)) :=
    spends_tableItem.bind fun _ => spends_tableItem.bind fun _ => spends_pure rfl
  refine spends_uleb.bind fun arraySize => spends_uleb.bind fun entryCount => ?_
  refine (spends_tableItem.times arraySize).bind fun array => (hentry.times entryCount).bind fun entries => ?_
  refine spends_pure ?_
  simp
  omega

theorem spends_complex : Spends (fun c => 1 + itemCount c) readComplex := by
  have hdouble := local_double.spendsIf
  refine spends_uleb.bind fun tag => ?_
  split
  · exact local_takePending.spendsIf.bind fun _ => spends_pure rfl
  · exact spends_table.bind fun t => spends_pure (by simp [itemCount])
  · exact hdouble.bind fun _ => hdouble.bind fun _ => spends_pure rfl
  · exact hdouble.bind fun _ => spends_pure rfl
  · exact hdouble.bind fun _ => spends_pure rfl
  · exact (local_text _).spendsIf.bind fun _ => spends_pure rfl

theorem spends_number : Spends (fun _ => 1) readNumber :=
  local_number.spends localDecoder_uleb128WithBit.needsInput.bind

theorem spends_instruction (numbering : Numbering) (count : Nat) :
    Spends (fun _ => 4) (readInstruction numbering count) := by
  refine (spends_uint 4).bind fun word => ?_
  dsimp only
  split
  · exact (local_note _).spendsIf.bind fun _ => spends_pure rfl
  · exact spends_pure rfl

theorem spends_lines (firstLine lineCount n : Nat) :
    Spends (fun lines => lines.length - 1) (readLines firstLine lineCount n) := by
  have hwidth : 1 ≤ lineWidth lineCount := by
    unfold lineWidth
    split_ifs <;> decide
  exact (((spends_uint _).weaken fun _ => hwidth).times n).bind fun _ => spends_pure (by simp)

theorem spends_variable (lastStart tag : Nat) : Spends (fun _ => 2) (readVariable lastStart tag) := by
  intro s t v hr _
  obtain ⟨name, m, hname, hr⟩ := ok_of_bind hr
  have hbounds : Spends (fun _ => 2) (do
      let start := lastStart + (← Read.uleb)
      let stop := start + (← Read.uleb)
      return (⟨name.1, name.2, start, stop⟩ : Variable)) :=
    spends_uleb.bind fun _ => spends_uleb.bind fun _ => spends_pure rfl
  have hstart := (local_variableName tag).spendsIf hname fun _ => needsInput_uleb.bind hr
  have hrest := hbounds.length_le hr
  dsimp only at hstart hrest ⊢
  omega

theorem spends_variables (fuel lastStart : Nat) :
    Spends (fun vs => 3 * vs.length) (readVariables fuel lastStart) := by
  induction fuel generalizing lastStart with
  | zero =>
    intro s t vs hr
    cases hr
  | succ fuel ih =>
    rw [readVariables_succ]
    refine (local_byte.spends needsInput_byte).bind fun tag => ?_
    split
    · exact spends_pure rfl
    · refine (spends_variable lastStart tag).bind fun v => (ih v.start).bind fun vs => spends_pure ?_
      simp only [List.length_cons]
      omega

theorem spends_debug (firstLine lineCount instructionCount upvalueCount : Nat) :
    Spends (fun d => d.lines.length - 1 + d.upvalues.length + 3 * d.locals.length)
      (readDebug firstLine lineCount instructionCount upvalueCount) := by
  have hname : SpendsIf true (fun _ => 1) (do Read.asciiText (← Read.zeroTerminated)) :=
    spends_zeroTerminated.bind fun bs => (local_asciiText bs).localIf.spendsIf
  intro s t d hr _
  obtain ⟨lines, m, hlines, hr⟩ := ok_of_bind hr
  obtain ⟨upvalues, m', hupvalues, hr⟩ := ok_of_bind hr
  -- the names are followed by the variables, so that the end of the dump ends none of them
  have hnames := hname.times _ hupvalues fun _ => (needsInput_variables 0).bind hr
  rw [run_get] at hr
  obtain ⟨locals, m'', hlocals, hr⟩ := ok_of_bind hr
  cases hr
  have hlines := (spends_lines _ _ _).length_le hlines
  have hlocals := (spends_variables _ _).length_le hlocals
  simp at hnames
  dsimp only
  omega

theorem spends_debugSection (c : Counts) : Spends (fun d => d.lines.length - 1 + d.upvalues.length +
    3 * d.locals.length) (readDebugSection c) := by
  unfold readDebugSection
  split
  · exact spends_pure rfl
  · exact spends_debug _ _ _ _

/-! ## Functions -/

/-- The fewest bytes that can hold what a function itself has. The header in front of the
instructions and the line of address 0 are not in the dump. -/
def ownWeight (p : Prototype) : Nat :=
  4 * (p.instructions.length - 1) + 2 * p.upvalues.length + p.complex.length +
    (p.complex.map itemCount).sum + p.numbers.length + (p.debug.lines.length - 1) +
    p.debug.upvalues.length + 3 * p.debug.locals.length

theorem spends_body (numbering : Numbering) (stripped : Bool) (flags : PrototypeFlags) :
    Spends ownWeight (readBody numbering stripped flags) := by
  rw [readBody_eq]
  refine (local_counts stripped).spendsIf.bind fun c => ?_
  refine ((spends_instruction _ _).times _).bind fun instructions => ?_
  refine ((spends_uint 2).times _).bind fun upvalues => (spends_complex.times _).bind fun complex => ?_
  refine (spends_number.times _).bind fun numbers => (spends_debugSection c).bind fun debug => ?_
  refine spends_pure ?_
  simp [ownWeight, List.sum_map_add]
  omega

variable {numbering : Numbering} {stripped : Bool} {p : Prototype}

/-- The fewest bytes that can hold a function and those inside it. -/
def weight (p : Prototype) : Nat := ((functionsOf p).map ownWeight).sum

theorem weight_eq (p : Prototype) :
    weight p = ownWeight p + ((p.complex.flatMap childOf).map weight).sum := by
  have hsum : ∀ ps : List Prototype, ((ps.flatMap functionsOf).map ownWeight).sum = (ps.map weight).sum := by
    intro ps
    induction ps with
    | nil => rfl
    | cons q ps ih => simp [weight, ih]
  rw [weight, functionsOf_eq, childFunctions_eq, List.map_append, List.sum_append, hsum, List.map_reverse,
    List.sum_reverse, Nat.add_comm]
  simp

/-- A record has the bytes for its function, which takes its children from those that wait. -/
theorem WholeRecord.weight_le {record : PlacedRecord} (h : WholeRecord numbering stripped s record t) :
    ((withFunction record.function t).pending.map weight).sum + t.rest.length ≤
      (s.pending.map weight).sum + s.rest.length := by
  obtain ⟨sizeBytes, bits, body, flags, hbytes, -, -, hbody⟩ := h.read
  obtain ⟨notes, hpasses, -⟩ := h.passes
  have hspent := (spends_body _ _ _).length_le hbody
  have hrest := congrArg List.length h.rest
  simp [hbytes] at hrest hspent
  simp [withFunction, hpasses.pending, weight_eq record.function]
  omega

theorem RecordsRead.weight_le {records : List PlacedRecord} (h : RecordsRead numbering stripped s records t) :
    (t.pending.map weight).sum + t.rest.length ≤ (s.pending.map weight).sum + s.rest.length := by
  induction h with
  | none => exact Nat.le_refl _
  | record first _ ih => exact Nat.le_trans ih first.weight_le

theorem weight_le_of_accepted {origin : String} {bytes : Bytes} {header : Header}
    (h : (Dump.read numbering origin bytes).result = .ok (some (header, p))) : weight p ≤ bytes.length := by
  obtain ⟨s, records, t, u, hheader, hrecords, hfinishes, hpending, -⟩ :=
    accepted_records (congrArg (Reading.mk · _) h)
  have hspent := hrecords.weight_le
  have hstart : 0 + s.rest.length ≤ bytes.length := (local_header origin).spendsIf hheader nofun
  have hnone : s.pending = [] := (passes_header hheader).pending.symm
  rw [← hfinishes.pending, hpending] at hspent
  simp [behindHeader, hnone] at hspent
  omega

/-! ## Loops without a count -/

/-- The loop with the body `F`, started with `x` in `s`, comes to an end: after some rounds nothing
is left to do, so that it does not matter how it would go on. -/
def EndsWith {σ : Type} (F : (σ → Read β) → σ → Read β) (x : σ) (s : Source)
    (outcome : EStateM.Result Fault Source β) : Prop := ∃ n, ∀ go, F^[n] go x s = outcome

def recordLoop (numbering : Numbering) (stripped : Bool) (go : Unit → Read Bool) (_ : Unit) : Read Bool := do
  if ← Read.atEnd then return true
  match ← readRecord numbering stripped with
  | some p =>
    modify fun s => { s with pending := p :: s.pending }
    go ()
  | none =>
    if ← Read.atEnd then return true
    Read.note "Failed to read prototype"
    return false

def variableLoop (go : Nat → Read (List Variable)) (lastStart : Nat) : Read (List Variable) := do
  let tag ← Read.byte
  if tag == 0 then return []
  else do
    let v ← readVariable lastStart tag
    let vs ← go v.start
    return v :: vs

theorem bind_eq_of_ok {f g : α → Read β} (h : ∀ a t, r s = .ok a t → f a t = g a t) :
    (r >>= f) s = (r >>= g) s := by
  change EStateM.bind r f s = EStateM.bind r g s
  unfold EStateM.bind
  cases hr : r s with
  | ok a t => exact h a t hr
  | error e t => rfl

theorem length_lt_of_readRecord (h : readRecord numbering stripped s = .ok (some p) t) :
    t.rest.length < s.rest.length := by
  obtain ⟨size, bits, flags, start, inner, hrun⟩ := readRecord_iff.mp h
  have hsize : 1 + start.rest.length ≤ s.rest.length := spends_uleb.length_le hrun.readSize
  have hbits : 0 + inner.rest.length ≤ start.rest.length := local_byte.spendsIf hrun.readBits nofun
  have hbody := (spends_body _ _ _).length_le hrun.readBody
  omega

theorem records_end (numbering : Numbering) (stripped : Bool) (s : Source) :
    EndsWith (recordLoop numbering stripped) () s (readRecords numbering stripped s.rest.length s) := by
  refine ⟨s.rest.length + 1, fun go => ?_⟩
  generalize hn : s.rest.length = n
  replace hn := Nat.le_of_eq hn
  induction n generalizing s with
  | zero =>
    have hnil := List.eq_nil_of_length_eq_zero (Nat.le_zero.mp hn)
    rw [readRecords_atEnd hnil, Function.iterate_one, recordLoop,
      run_bind (show Read.atEnd s = .ok _ s from rfl), if_pos (by simp [hnil])]
    rfl
  | succ n ih =>
    rw [Function.iterate_succ_apply']
    refine bind_eq_of_ok fun _ _ hs => ?_
    cases hs
    split
    · rfl
    · refine bind_eq_of_ok fun found t ht => ?_
      cases found with
      | none => rfl
      | some p =>
        have hlt := length_lt_of_readRecord ht
        exact ih (withFunction p t) (by change t.rest.length ≤ n; omega)

theorem variables_end (lastStart : Nat) (s : Source) :
    EndsWith variableLoop lastStart s (readVariables (s.rest.length + 1) lastStart s) := by
  refine ⟨s.rest.length + 1, fun go => ?_⟩
  generalize hn : s.rest.length + 1 = n
  replace hn := Nat.le_of_eq hn
  induction n generalizing lastStart s with
  | zero => omega
  | succ n ih =>
    rw [Function.iterate_succ_apply', readVariables_succ]
    refine bind_eq_of_ok fun tag m hm => ?_
    split
    · rfl
    · refine bind_eq_of_ok fun v t hv => ?_
      have htag := (local_byte.spends needsInput_byte).length_le hm
      have hspent := (spends_variable _ _).length_le hv
      have hvs := ih v.start t (by omega)
      change EStateM.bind _ _ t = EStateM.bind _ _ t
      unfold EStateM.bind
      rw [hvs]

/-- What is read from an accepted dump, with all functions inside each other, is no larger than the
dump, whatever the counts in it say; and no dump keeps the reader going for ever: both loops without
a count end, wherever they start. -/
theorem reading_is_bounded (numbering : Numbering) (origin : String) (bytes : Bytes) :
    (∀ header p, (Dump.read numbering origin bytes).result = .ok (some (header, p)) →
      weight p ≤ bytes.length) ∧
    (∀ stripped s, EndsWith (recordLoop numbering stripped) () s
      (readRecords numbering stripped s.rest.length s)) ∧
    ∀ lastStart s, EndsWith variableLoop lastStart s (readVariables (s.rest.length + 1) lastStart s) :=
  ⟨fun _ _ h => weight_le_of_accepted h, records_end numbering, variables_end⟩

theorem siblings_are_bounded :
    (Dump.read .current "siblings" siblingDump).result =
      .ok (some (⟨2, { stripped := true }, "siblings", "siblings"⟩, idleParent)) ∧
    0 < weight idleParent ∧ weight idleParent ≤ siblingDump.length :=
  ⟨rfl, by decide, (reading_is_bounded .current "siblings" siblingDump).1 _ _ rfl⟩

end LuaLift.Proofs
