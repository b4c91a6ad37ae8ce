import Mathlib.Data.List.TakeDrop
import Mathlib.Data.List.TakeWhile
import LuaLift.Proofs.Decoding

/-! # A record is read from its own bytes

`Consumes r s used a t` says that reader `r`, started in `s`, has read exactly the bytes `used`
when it gives `a` and leaves `t`, and that it does the same whatever follows these bytes.
Every reader of a record has such bytes whenever it succeeds. The one exception is a text
that is ended by the end of the dump, and no record ends with a text: what is read behind
it then fails. So the size of a record, which is compared at its end, leaves no other bytes
than those of the record. -/
namespace LuaLift.Proofs
open Bytecode Dump

variable {α β : Type}

variable {s t : Source} {a : α} {b : β}

theorem ok_of_bind {r : Read α} {f : α → Read β} (h : (r >>= f) s = .ok b t) :
    ∃ a m, r s = .ok a m ∧ f a m = .ok b t := by
  change EStateM.bind r f s = .ok b t at h
  unfold EStateM.bind at h
  split at h
  · rename_i a m hr
    exact ⟨a, m, hr, h⟩
  · cases h

/-- A reader reads the bytes `used`, gives `a` and leaves `t`, whatever follows. -/
structure Consumes (r : Read α) (s : Source) (used : Bytes) (a : α) (t : Source) : Prop where
  rest : s.rest = used ++ t.rest
  size : t.size = s.size
  order : t.order = s.order
  /-- waiting functions are taken as children, the newest first -/
  pending : t.pending <:+ s.pending
  again : ∀ (size : Nat) (rest : Bytes),
    r { s with size := size, rest := used ++ rest } = .ok a { t with size := size, rest := rest }

/-- What a reader gives when it succeeds depends on the bytes that it reads. If `more` is
set, this is promised only when it leaves some bytes. -/
def LocalIf (more : Bool) (r : Read α) : Prop :=
  ∀ ⦃s t : Source⦄ ⦃a : α⦄, r s = .ok a t → (more = true → t.rest ≠ []) → ∃ used, Consumes r s used a t

abbrev Local (r : Read α) : Prop := LocalIf false r

/-- A reader that fails at the end of the dump. -/
def NeedsInput (r : Read α) : Prop := ∀ ⦃s t : Source⦄ ⦃a : α⦄, r s = .ok a t → s.rest ≠ []

variable {more : Bool} {r : Read α} {f : α → Read β}

theorem Local.localIf (h : Local r) : LocalIf more r := fun _ _ _ hr _ => h hr (by simp)

theorem Local.consumes (h : Local r) (hr : r s = .ok a t) : ∃ used, Consumes r s used a t := h hr (by simp)

theorem Consumes.bind {m : Source} {xs ys : Bytes} (h : Consumes r s xs a m) (h' : Consumes (f a) m ys b t) :
    Consumes (r >>= f) s (xs ++ ys) b t where
  rest := by rw [h.rest, h'.rest, List.append_assoc]
  size := h'.size.trans h.size
  order := h'.order.trans h.order
  pending := h'.pending.trans h.pending
  again size rest := by
    rw [List.append_assoc, run_bind (h.again size (ys ++ rest))]
    exact h'.again size rest

theorem LocalIf.bind (h : LocalIf more r) (h' : ∀ a, LocalIf more (f a)) :
    LocalIf more (r >>= f) := by
  intro s t b hr hmore
  obtain ⟨a, m, hfirst, hsecond⟩ := ok_of_bind hr
  obtain ⟨ys, hys⟩ := h' a hsecond hmore
  obtain ⟨xs, hxs⟩ := h hfirst fun hm => by simp [hys.rest, hmore hm]
  exact ⟨xs ++ ys, hxs.bind hys⟩

theorem LocalIf.before (h : LocalIf more r) (h' : ∀ a, Local (f a)) (hneeds : ∀ a, NeedsInput (f a)) :
    Local (r >>= f) := by
  intro s t b hr _
  obtain ⟨a, m, hfirst, hsecond⟩ := ok_of_bind hr
  obtain ⟨xs, hxs⟩ := h hfirst fun _ => hneeds a hsecond
  obtain ⟨ys, hys⟩ := (h' a).consumes hsecond
  exact ⟨xs ++ ys, hxs.bind hys⟩

theorem NeedsInput.bind (h : NeedsInput r) : NeedsInput (r >>= f) := by
  intro s t b hr
  obtain ⟨a, m, hfirst, -⟩ := ok_of_bind hr
  exact h hfirst

theorem Consumes.ne_nil {used : Bytes} (h : Consumes r s used a t) (hneeds : NeedsInput r) : used ≠ [] := by
  rintro rfl
  exact hneeds (h.again s.size []) rfl

theorem local_order (g : ByteOrder → α) : Local (do return g (← get).order) := by
  intro s t a hr _
  obtain ⟨rfl, rfl⟩ : g s.order = a ∧ s = t := by
    cases hr
    exact ⟨rfl, rfl⟩
  exact ⟨[], rfl, rfl, rfl, List.suffix_rfl, fun _ _ => rfl⟩

theorem local_pure (a : α) : Local (pure a) := local_order fun _ => a

theorem local_throw (e : Fault) : Local (throw e : Read α) := by
  intro s t a hr
  cases hr

theorem LocalIf.map (h : LocalIf more r) (g : α → β) : LocalIf more (do return g (← r)) :=
  h.bind fun a => (local_pure (g a)).localIf

theorem local_note (line : String) : Local (Read.note line) := by
  intro s t a hr _
  obtain rfl : { s with log := s.log ++ [line] } = t := by
    cases hr
    rfl
  exact ⟨[], rfl, rfl, rfl, List.suffix_rfl, fun _ _ => rfl⟩

theorem LocalIf.times (h : LocalIf more r) (n : Nat) : LocalIf more (Read.times n r) := by
  induction n with
  | zero => exact (local_pure []).localIf
  | succ n ih => exact h.bind fun x => ih.map (x :: ·)

/-! ## Bytes, numbers and texts -/

theorem local_byte : Local Read.byte := by
  intro s t a hr _
  rw [byte_apply] at hr
  cases hrest : s.rest with
  | nil =>
    rw [hrest] at hr
    cases hr
  | cons b rest =>
    rw [hrest] at hr
    cases hr
    exact ⟨[b], hrest, rfl, rfl, List.suffix_rfl, fun _ _ => rfl⟩

theorem needsInput_byte : NeedsInput Read.byte := by
  intro s t a hr hnil
  rw [byte_apply, hnil] at hr
  cases hr

theorem append_of_splitExactly {n : Nat} {xs bs rest : List α}
    (h : splitExactly n xs = some (bs, rest)) : xs = bs ++ rest ∧ bs.length = n := by
  induction n generalizing xs bs with
  | zero =>
    obtain ⟨rfl, rfl⟩ : [] = bs ∧ xs = rest := by simpa [splitExactly] using h
    exact ⟨rfl, rfl⟩
  | succ n ih =>
    cases xs with
    | nil => cases h
    | cons x xs =>
      obtain ⟨⟨cs, rest'⟩, hsplit, heq⟩ := Option.map_eq_some_iff.mp h
      cases heq
      obtain ⟨rfl, rfl⟩ := ih hsplit
      exact ⟨rfl, rfl⟩

theorem local_bytes (n : Nat) : Local (Read.bytes n) := by
  intro s t a hr _
  rw [bytes_apply] at hr
  cases hsplit : splitExactly n s.rest with
  | none =>
    rw [hsplit] at hr
    cases hr
  | some parts =>
    rw [hsplit] at hr
    cases hr
    obtain ⟨hbytes, rfl⟩ := append_of_splitExactly hsplit
    refine ⟨parts.1, hbytes, rfl, rfl, List.suffix_rfl, fun size rest' => ?_⟩
    rw [bytes_apply, splitExactly_append]

/-- A decoder that reads the front of the bytes. -/
def LocalDecoder (decode : Bytes → Option (α × Bytes)) : Prop :=
  ∀ ⦃bs rest : Bytes⦄ ⦃a : α⦄, decode bs = some (a, rest) →
    ∃ used, used ≠ [] ∧ bs = used ++ rest ∧ ∀ rest', decode (used ++ rest') = some (a, rest')

theorem localDecoder_uleb128 : LocalDecoder uleb128 := by
  intro bs rest v h
  induction bs generalizing v with
  | nil => cases h
  | cons b bs ih =>
    unfold uleb128 at h
    split at h
    · rename_i hlast
      cases h
      exact ⟨[b], by simp, rfl, fun rest' => by simp [uleb128, hlast]⟩
    · rename_i hmore
      obtain ⟨⟨w, rest'⟩, hw, heq⟩ := Option.map_eq_some_iff.mp h
      cases heq
      obtain ⟨used, -, rfl, hused⟩ := ih hw
      exact ⟨b :: used, by simp, rfl, fun rest' => by simp [uleb128, hmore, hused]⟩

theorem localDecoder_uleb128WithBit : LocalDecoder uleb128WithBit := by
  intro bs rest v h
  cases bs with
  | nil => cases h
  | cons b bs =>
    unfold uleb128WithBit at h
    dsimp only at h
    split at h
    · rename_i hlast
      cases h
      exact ⟨[b], by simp, rfl, fun rest' => by simp [uleb128WithBit, hlast]⟩
    · rename_i hmore
      obtain ⟨⟨w, rest'⟩, hw, heq⟩ := Option.map_eq_some_iff.mp h
      cases heq
      obtain ⟨used, -, rfl, hused⟩ := localDecoder_uleb128 hw
      exact ⟨b :: used, by simp, rfl, fun rest' => by simp [uleb128WithBit, hmore, hused]⟩

section
variable {decode : Bytes → Option (α × Bytes)}

theorem decoded_iff : Read.decoded decode s = .ok a t ↔
    ∃ rest, decode s.rest = some (a, rest) ∧ t = { s with rest := rest } := by
  change (match decode s.rest with | some (v, r) => _ | none => _ : Read _) s = _ ↔ _
  cases decode s.rest with
  | none =>
    constructor
    · intro h
      cases h
    · rintro ⟨rest, h, -⟩
      cases h
  | some parts =>
    constructor
    · intro h
      cases h
      exact ⟨parts.2, rfl, rfl⟩
    · rintro ⟨rest, h, rfl⟩
      cases h
      rfl

theorem LocalDecoder.local (h : LocalDecoder decode) : Local (Read.decoded decode) := by
  intro s t a hr _
  obtain ⟨rest, hdecode, rfl⟩ := decoded_iff.mp hr
  obtain ⟨used, -, hbytes, hused⟩ := h hdecode
  refine ⟨used, hbytes, rfl, rfl, List.suffix_rfl, fun size rest' => ?_⟩
  exact decoded_iff.mpr ⟨rest', hused rest', rfl⟩

theorem LocalDecoder.needsInput (h : LocalDecoder decode) : NeedsInput (Read.decoded decode) := by
  intro s t a hr
  obtain ⟨rest, hdecode, -⟩ := decoded_iff.mp hr
  obtain ⟨used, hne, hbytes, -⟩ := h hdecode
  simp [hbytes, hne]

end

theorem local_uleb : Local Read.uleb := localDecoder_uleb128.local

theorem local_ulebWithBit : Local Read.ulebWithBit := localDecoder_uleb128WithBit.local

theorem needsInput_uleb : NeedsInput Read.uleb := localDecoder_uleb128.needsInput

theorem local_uint (n : Nat) : Local (Read.uint n) :=
  (local_bytes n).bind fun bs => local_order fun order => order.decode bs

theorem local_text (n : Nat) : Local (Read.text n) := by
  refine (local_bytes n).bind fun bs => ?_
  split
  · exact local_pure _
  · exact local_throw _

theorem local_asciiText (bs : Bytes) : Local (Read.asciiText bs) := by
  unfold Read.asciiText
  split
  · exact local_pure _
  · exact local_throw _

/-- A text up to a zero byte is read from its own bytes if some bytes are left: it is then
ended by a zero byte and not by the end of the dump. -/
theorem local_zeroTerminated : LocalIf true Read.zeroTerminated := by
  intro s t a hr hmore
  obtain ⟨rfl, rfl⟩ : s.rest.takeWhile (· != 0) = a ∧
      { s with rest := (s.rest.dropWhile (· != 0)).drop 1 } = t := by
    change EStateM.Result.ok (s.rest.span (· != 0)).1
      { s with rest := (s.rest.span (· != 0)).2.drop 1 } = .ok a t at hr
    rw [List.span_eq_takeWhile_dropWhile] at hr
    cases hr
    exact ⟨rfl, rfl⟩
  cases hdrop : s.rest.dropWhile (· != 0) with
  | nil => simp [hdrop] at hmore
  | cons b rest =>
    have hzero : (b != 0) = false := by
      have := List.head?_dropWhile_not (· != 0) s.rest
      simpa [hdrop] using this
    have hbytes : s.rest = (s.rest.takeWhile (· != 0) ++ [b]) ++ rest := by
      rw [List.append_assoc, List.singleton_append, ← hdrop, List.takeWhile_append_dropWhile]
    refine ⟨s.rest.takeWhile (· != 0) ++ [b], by simpa using hbytes, rfl, rfl, List.suffix_rfl,
      fun size rest' => ?_⟩
    have hall : ∀ x ∈ s.rest.takeWhile (· != 0), (x != 0) = true := fun _ hx =>
      List.mem_takeWhile_imp (p := (· != 0)) hx
    have htake : (s.rest.takeWhile (· != 0) ++ [b] ++ rest').takeWhile (· != 0) =
        s.rest.takeWhile (· != 0) := by
      rw [List.append_assoc, List.takeWhile_append_of_pos hall]
      simp [hzero]
    have hrest : (s.rest.takeWhile (· != 0) ++ [b] ++ rest').dropWhile (· != 0) = b :: rest' := by
      rw [List.append_assoc, List.dropWhile_append_of_pos hall]
      simp [hzero]
    change EStateM.Result.ok (List.span (· != 0) (s.rest.takeWhile (· != 0) ++ [b] ++ rest')).1
      { s with size := size, rest :=
        (List.span (· != 0) (s.rest.takeWhile (· != 0) ++ [b] ++ rest')).2.drop 1 } = _
    rw [List.span_eq_takeWhile_dropWhile, htake, hrest]
    rfl

/-! ## Parts of a record -/

theorem local_double : Local readDouble := by
  refine local_uleb.bind fun low => local_uleb.bind fun high => ?_
  split
  · exact local_pure _
  · exact local_throw _

theorem local_tableItem : Local readTableItem := by
  refine local_uleb.bind fun tag => ?_
  split
  · exact local_pure _
  · exact local_pure _
  · exact local_pure _
  · exact local_uleb.map _
  · exact local_double.map _
  · exact (local_text _).map _

theorem local_table : Local readTable := by
  refine local_uleb.bind fun arraySize => local_uleb.bind fun entryCount => ?_
  refine (local_tableItem.times arraySize).bind fun array => ?_
  have hentry : Local (do
      let key ← readTableItem
      let value ← readTableItem
      return (key, value)) := local_tableItem.bind fun key => local_tableItem.map (key, ·)
  exact (hentry.times entryCount).map (TableConstant.mk array)

theorem local_takePending : Local takePending := by
  intro s t a hr _
  rw [takePending_apply] at hr
  cases hpending : s.pending with
  | nil =>
    rw [hpending] at hr
    cases hr
  | cons p ps =>
    rw [hpending] at hr
    cases hr
    refine ⟨[], rfl, rfl, rfl, hpending ▸ List.suffix_cons _ _, fun size rest => ?_⟩
    rw [hpending]
    rfl

theorem local_complex : Local readComplex := by
  refine local_uleb.bind fun tag => ?_
  split
  · exact local_takePending.map _
  · exact local_table.map _
  · exact local_double.bind fun re => local_double.map _
  · exact local_double.map _
  · exact local_double.map _
  · exact (local_text _).map _

theorem local_number : Local readNumber := by
  refine local_ulebWithBit.bind fun head => ?_
  dsimp only
  split
  · refine local_uleb.bind fun high => ?_
    split
    · exact local_pure _
    · exact local_throw _
  · exact local_pure _

theorem local_instruction (numbering : Numbering) (count : Nat) :
    Local (readInstruction numbering count) := by
  refine (local_uint 4).bind fun word => ?_
  dsimp only
  split
  · exact (local_note _).bind fun _ => local_pure _
  · exact local_pure _

/-! ## Debug sections -/

/-- Reads the name of a variable behind its tag. -/
def readVariableName (tag : Nat) : Read (String × VariableKind) :=
  match internalName? tag with
  | some name => return (name, .internal)
  | none => do return (← Read.asciiText (tag.toUInt8 :: (← Read.zeroTerminated)), .visible)

/-- Reads a variable record behind its tag. -/
def readVariable (lastStart tag : Nat) : Read Variable := do
  let head ← readVariableName tag
  let start := lastStart + (← Read.uleb)
  let stop := start + (← Read.uleb)
  return ⟨head.1, head.2, start, stop⟩

theorem readVariables_succ (fuel lastStart : Nat) : readVariables (fuel + 1) lastStart = (do
    let tag ← Read.byte
    if tag == 0 then return []
    else do
      let v ← readVariable lastStart tag
      let vs ← readVariables fuel v.start
      return v :: vs) := by
  refine congrArg (Read.byte >>= ·) (funext fun tag => ?_)
  split
  · rfl
  · cases hname : internalName? tag <;> simp [readVariable, readVariableName, hname]

theorem local_variableName (tag : Nat) : LocalIf true (readVariableName tag) := by
  unfold readVariableName
  split
  · exact (local_pure _).localIf
  · exact local_zeroTerminated.bind fun bs => Local.localIf ((local_asciiText _).map _)

/-- The bounds of the range follow the name, so the name is not ended by the end of the dump. -/
theorem local_variable (lastStart tag : Nat) : Local (readVariable lastStart tag) :=
  (local_variableName tag).before (fun _ => local_uleb.bind fun _ => local_uleb.map _)
    fun _ => needsInput_uleb.bind

/-- The records of variables are read from their own bytes, and as much fuel as there are
bytes suffices. -/
theorem consumes_variables {fuel lastStart : Nat} {vs : List Variable}
    (h : readVariables fuel lastStart s = .ok vs t) :
    ∃ used, ∀ fuel', used.length ≤ fuel' → Consumes (readVariables fuel' lastStart) s used vs t := by
  induction fuel generalizing lastStart s vs with
  | zero => cases h
  | succ fuel ih =>
    rw [readVariables_succ] at h
    obtain ⟨tag, m, hbyte, h⟩ := ok_of_bind h
    obtain ⟨xs, hxs⟩ := local_byte.consumes hbyte
    have hpos := List.length_pos_iff.mpr (hxs.ne_nil needsInput_byte)
    split at h
    · rename_i hlast
      obtain ⟨rfl, rfl⟩ : [] = vs ∧ m = t := by
        cases h
        exact ⟨rfl, rfl⟩
      refine ⟨xs, fun fuel' hfuel => ?_⟩
      obtain ⟨fuel', rfl⟩ := Nat.exists_eq_add_of_le' (Nat.le_trans hpos hfuel)
      rw [readVariables_succ, ← List.append_nil xs]
      refine hxs.bind ?_
      rw [if_pos hlast]
      exact ⟨rfl, rfl, rfl, List.suffix_rfl, fun _ _ => rfl⟩
    · rename_i hmore
      obtain ⟨v, m', hv, h⟩ := ok_of_bind h
      obtain ⟨ws, m'', hws, h⟩ := ok_of_bind h
      obtain ⟨rfl, rfl⟩ : v :: ws = vs ∧ m'' = t := by
        cases h
        exact ⟨rfl, rfl⟩
      obtain ⟨ys, hys⟩ := (local_variable lastStart tag).consumes hv
      obtain ⟨zs, hzs⟩ := ih hws
      refine ⟨xs ++ (ys ++ (zs ++ [])), fun fuel' hfuel => ?_⟩
      simp only [List.length_append, List.length_nil] at hfuel
      obtain ⟨fuel', rfl⟩ := Nat.exists_eq_add_of_le' (show 1 ≤ fuel' by omega)
      rw [readVariables_succ]
      refine hxs.bind ?_
      rw [if_neg hmore]
      exact hys.bind ((hzs fuel' (by omega)).bind ⟨rfl, rfl, rfl, List.suffix_rfl, fun _ _ => rfl⟩)

theorem local_variables (lastStart : Nat) :
    Local (do readVariables ((← get).rest.length + 1) lastStart) := by
  intro s t vs hr _
  obtain ⟨used, hused⟩ := consumes_variables hr
  obtain ⟨hrest, hsize, horder, hpending, -⟩ := hused used.length (Nat.le_refl _)
  refine ⟨used, hrest, hsize, horder, hpending, fun size rest => ?_⟩
  refine (hused _ ?_).again size rest
  simp only [List.length_append]
  omega

theorem needsInput_variables (lastStart : Nat) :
    NeedsInput (do readVariables ((← get).rest.length + 1) lastStart) := by
  intro s t vs hr
  exact needsInput_byte.bind hr

theorem local_lines (firstLine lineCount n : Nat) : Local (readLines firstLine lineCount n) :=
  ((local_uint _).times n).map _

/-- The names of upvalues are followed by the records of variables, which end with a zero
byte, so none of them is ended by the end of the dump. -/
theorem local_debug (firstLine lineCount instructionCount upvalueCount : Nat) :
    Local (readDebug firstLine lineCount instructionCount upvalueCount) := by
  refine (local_lines _ _ _).bind fun lines => ?_
  have hnames : LocalIf true (Read.times upvalueCount do Read.asciiText (← Read.zeroTerminated)) :=
    LocalIf.times (local_zeroTerminated.bind fun bs => (local_asciiText bs).localIf) _
  refine hnames.before (fun upvalues => ?_) fun upvalues => ?_
  · exact (local_variables 0).map (DebugInfo.mk lines upvalues)
  · exact (needsInput_variables 0).bind

/-! ## Records -/

/-- The counts and sizes at the start of a record. -/
structure Counts where
  argumentCount : Nat
  framesize : Nat
  upvalueCount : Nat
  complexCount : Nat
  numberCount : Nat
  instructionCount : Nat
  debugSize : Nat
  firstLine : Nat
  lineCount : Nat

/-- Reads the size of the debug section, which a stripped dump does not have. -/
def readDebugSize (stripped : Bool) : Read Nat := if stripped then return 0 else Read.uleb

/-- Reads the first line and the number of lines, which belong to the debug section. -/
def readLineRange (debugSize : Nat) : Read (Nat × Nat) :=
  if debugSize == 0 then return (0, 0) else do return (← Read.uleb, ← Read.uleb)

def readCounts (stripped : Bool) : Read Counts := do
  let argumentCount ← Read.byte
  let framesize ← Read.byte
  let upvalueCount ← Read.byte
  let complexCount ← Read.uleb
  let numberCount ← Read.uleb
  let instructionCount ← Read.uleb
  let debugSize ← readDebugSize stripped
  let lines ← readLineRange debugSize
  return ⟨argumentCount, framesize, upvalueCount, complexCount, numberCount, instructionCount,
    debugSize, lines.1, lines.2⟩

def readDebugSection (c : Counts) : Read DebugInfo :=
  if c.debugSize == 0 then return {}
  else readDebug c.firstLine c.lineCount c.instructionCount c.upvalueCount

/-- Reads instructions, constants and debug section of a function. -/
def readContents (numbering : Numbering) (flags : PrototypeFlags) (c : Counts) : Read Prototype := do
  let instructions ← Read.times c.instructionCount (readInstruction numbering c.complexCount)
  let upvalues ← Read.times c.upvalueCount (Read.uint 2)
  let complex ← Read.times c.complexCount readComplex
  let numbers ← Read.times c.numberCount readNumber
  let debug ← readDebugSection c
  return ⟨flags, c.argumentCount, c.framesize, c.firstLine, c.lineCount,
    .functionHeader flags.isVariadic c.framesize :: instructions, upvalues, complex, numbers, debug⟩

theorem readBody_eq (numbering : Numbering) (stripped : Bool) (flags : PrototypeFlags) :
    readBody numbering stripped flags = readCounts stripped >>= readContents numbering flags := by
  unfold readBody readCounts readContents readDebugSection
  simp only [bind_assoc]
  refine bind_congr fun argumentCount => bind_congr fun framesize => bind_congr fun upvalueCount => ?_
  refine bind_congr fun complexCount => bind_congr fun numberCount => ?_
  refine bind_congr fun instructionCount => ?_
  cases stripped with
  | true => simp [readDebugSize, readLineRange]
  | false =>
    refine bind_congr fun debugSize => ?_
    by_cases h : debugSize = 0 <;> simp [readLineRange, h]

theorem local_counts (stripped : Bool) : Local (readCounts stripped) := by
  have hsize : Local (readDebugSize stripped) := by
    unfold readDebugSize
    split
    · exact local_pure 0
    · exact local_uleb
  have hlines : ∀ debugSize, Local (readLineRange debugSize) := by
    intro debugSize
    unfold readLineRange
    split
    · exact local_pure _
    · exact local_uleb.bind fun firstLine => local_uleb.map (firstLine, ·)
  refine local_byte.bind fun _ => local_byte.bind fun _ => local_byte.bind fun _ => ?_
  refine local_uleb.bind fun _ => local_uleb.bind fun _ => local_uleb.bind fun _ => ?_
  exact hsize.bind fun debugSize => (hlines debugSize).map _

theorem local_contents (numbering : Numbering) (flags : PrototypeFlags) (c : Counts) :
    Local (readContents numbering flags c) := by
  have hdebug : Local (readDebugSection c) := by
    unfold readDebugSection
    split
    · exact local_pure _
    · exact local_debug _ _ _ _
  refine LocalIf.bind (LocalIf.times (local_instruction _ _) _) fun _ => ?_
  refine LocalIf.bind (LocalIf.times (local_uint 2) _) fun _ => ?_
  exact (local_complex.times _).bind fun _ => (local_number.times _).bind fun _ => hdebug.map _

theorem local_body (numbering : Numbering) (stripped : Bool) (flags : PrototypeFlags) :
    Local (readBody numbering stripped flags) := by
  rw [readBody_eq]
  exact (local_counts stripped).bind fun c => local_contents numbering flags c

/-- The steps in which a record is read: its size, of which as many bytes are there, its flags
and its body, which ends where the size says. -/
structure RecordRun (numbering : Numbering) (stripped : Bool) (s t : Source) (p : Prototype)
    (size bits : Nat) (flags : PrototypeFlags) (start inner : Source) : Prop where
  readSize : Read.uleb s = .ok size start
  nonempty : size ≠ 0
  available : (splitExactly size start.rest).isSome
  readBits : Read.byte start = .ok bits inner
  knownFlags : decodeFlags bits = some flags
  readBody : readBody numbering stripped flags inner = .ok p t
  consumed : t.offset - start.offset = size

theorem readRecord_iff {numbering : Numbering} {stripped : Bool} {p : Prototype} :
    readRecord numbering stripped s = .ok (some p) t ↔ ∃ size bits flags start inner,
      RecordRun numbering stripped s t p size bits flags start inner := by
  constructor
  · intro h
    obtain ⟨size, start, hsize, h⟩ := ok_of_bind h
    split at h
    · cases h
    · rename_i hnonempty
      obtain ⟨available, start', havailable, h⟩ := ok_of_bind h
      obtain ⟨rfl, rfl⟩ : (splitExactly size start.rest).isSome = available ∧ start = start' := by
        cases havailable
        exact ⟨rfl, rfl⟩
      split at h
      · rename_i hsome
        rw [run_get] at h
        obtain ⟨bits, inner, hbits, h⟩ := ok_of_bind h
        cases hflags : decodeFlags bits with
        | none =>
          rw [hflags] at h
          cases h
        | some flags =>
          rw [hflags] at h
          obtain ⟨q, t', hbody, h⟩ := ok_of_bind h
          rw [run_get] at h
          split at h
          · cases h
          · rename_i hconsumed
            cases h
            exact ⟨size, bits, flags, start, inner, hsize, by simpa using hnonempty, hsome, hbits,
              hflags, hbody, by simpa using hconsumed⟩
      · cases h
  · rintro ⟨size, bits, flags, start, inner, h⟩
    have havailable : Read.available size start = .ok true start := by
      rw [← h.available]
      rfl
    unfold readRecord
    rw [run_bind h.readSize, if_neg (by simpa using h.nonempty), run_bind havailable, if_pos rfl, run_get,
      run_bind h.readBits, h.knownFlags]
    dsimp only
    rw [run_bind h.readBody, run_get, if_neg (by simpa using h.consumed)]
    rfl

/-- The state of a reader that has read `before` bytes and has `bytes` ahead of it. -/
def sourceAt (s : Source) (before : Nat) (bytes : Bytes) : Source :=
  { s with size := before + bytes.length, rest := bytes }

/-- Whether a record is accepted, the function that it holds, the functions that this one
takes as children and where the reader stands afterwards do not depend on what follows the
record: the reader then stands at the end of the record. -/
theorem record_read_from_own_bytes {numbering : Numbering} {stripped : Bool}
    {sizeBytes body : Bytes} (hsize : uleb128 sizeBytes = some (body.length, [])) (s : Source)
    (before : Nat) {follows : Bytes} {p : Prototype} {t : Source}
    (h : readRecord numbering stripped (sourceAt s before (sizeBytes ++ body ++ follows)) =
      .ok (some p) t) :
    ∃ pending log, t = sourceAt { s with pending := pending, log := log }
        (before + (sizeBytes ++ body).length) follows ∧
      ∀ follows', readRecord numbering stripped (sourceAt s before (sizeBytes ++ body ++ follows')) =
        .ok (some p) (sourceAt { s with pending := pending, log := log }
          (before + (sizeBytes ++ body).length) follows') := by
  obtain ⟨size, bits, flags, start, inner, hrun⟩ := readRecord_iff.mp h
  -- the size is that of the body, and the reader then stands in front of the body
  have hread : ∀ rest, Read.uleb (sourceAt s before (sizeBytes ++ body ++ rest)) = .ok body.length
      (sourceAt s (before + sizeBytes.length) (body ++ rest)) := by
    intro rest
    obtain ⟨used, -, hused, hdecode⟩ := localDecoder_uleb128 hsize
    rw [List.append_nil] at hused
    refine decoded_iff.mpr ⟨body ++ rest, ?_, ?_⟩
    · rw [hused, sourceAt, List.append_assoc, hdecode]
    · simp only [sourceAt, List.length_append, Nat.add_assoc]
  obtain ⟨rfl, rfl⟩ : body.length = size ∧
      sourceAt s (before + sizeBytes.length) (body ++ follows) = start := by
    have := (hread follows).symm.trans hrun.readSize
    cases this
    exact ⟨rfl, rfl⟩
  obtain ⟨xs, hxs⟩ := local_byte.consumes hrun.readBits
  obtain ⟨ys, hys⟩ := (local_body numbering stripped flags).consumes hrun.readBody
  -- so many bytes are read as the body has
  have hbytes : body ++ follows = (xs ++ ys) ++ t.rest := by
    rw [List.append_assoc, ← hys.rest, ← hxs.rest]
    rfl
  have hend : t.size = before + sizeBytes.length + (body ++ follows).length :=
    hys.size.trans hxs.size
  have hrest : t.rest.length = follows.length := by
    have hlength := congrArg List.length hbytes
    have hconsumed := hrun.consumed
    have hnonempty := hrun.nonempty
    simp only [Source.offset, hend, sourceAt, List.length_append] at hlength hconsumed
    omega
  obtain ⟨rfl, rfl⟩ := List.append_inj' hbytes hrest.symm
  have horder : t.order = s.order := hys.order.trans hxs.order
  have hstate : ∀ rest, sourceAt { s with pending := t.pending, log := t.log }
      (before + (sizeBytes ++ (xs ++ ys)).length) rest =
      { t with size := before + sizeBytes.length + (xs ++ ys ++ rest).length, rest := rest } := by
    intro rest
    simp only [sourceAt, horder, List.length_append, Nat.add_assoc]
  refine ⟨t.pending, t.log, ?_, fun follows' => ?_⟩
  · rw [hstate, ← hend]
  · have hbits := hxs.again (before + sizeBytes.length + (xs ++ ys ++ follows').length) (ys ++ follows')
    rw [← List.append_assoc] at hbits
    have hconsumed : (before + sizeBytes.length + (xs ++ ys ++ follows').length - follows'.length) -
        (before + sizeBytes.length + (xs ++ ys ++ follows').length - (xs ++ ys ++ follows').length) =
        (xs ++ ys).length := by
      simp only [List.length_append]
      omega
    have havailable : (splitExactly (xs ++ ys).length (xs ++ ys ++ follows')).isSome := by
      rw [splitExactly_append]
      rfl
    rw [hstate]
    exact readRecord_iff.mpr ⟨_, bits, flags, _, _, hread follows', hrun.nonempty, havailable, hbits,
      hrun.knownFlags, hys.again _ _, hconsumed⟩

/-- The body of a record with a child, an upvalue, a number and a named variable. -/
def namedBody : Bytes :=
  [0x01, 0x00, 0x03, 0x01, 0x01, 0x01, 0x02, 0x0a, 0x07, 0x02] ++
    ([0x33, 0x00, 0x00, 0x00] ++ [0x4c, 0x00, 0x02, 0x00]) ++ [0x00, 0x80] ++ [0x00] ++ [0x0a] ++
    ([0x00, 0x01] ++ [0x75, 0x00] ++ [0x78, 0x00, 0x01, 0x02] ++ [0x00])

/-- The function of that record. -/
def namedFunction (child : Prototype) : Prototype where
  flags := { hasChildren := true }
  argumentCount := 0
  framesize := 3
  firstLine := 7
  lineCount := 2
  instructions := [.functionHeader false 3,
    ⟨.fnew, Opcode.fnew.number, some 0, none, some 0⟩, ⟨.ret1, Opcode.ret1.number, some 0, none, some 2⟩]
  upvalues := [0x8000]
  complex := [.child child]
  numbers := [.int 5]
  debug := ⟨[0, 7, 8], ["u"], [⟨"x", .visible, 1, 3⟩]⟩

/-- The record at the end of a dump and followed by a byte that is no record. -/
theorem record_read_from_own_bytes_named :
    uleb128 [0x9f, 0x00] = some (namedBody.length, []) ∧
    readRecord .current false (sourceAt { size := 0, rest := [], pending := [identityFunction] } 5
        ([0x9f, 0x00] ++ namedBody ++ [])) =
      .ok (some (namedFunction identityFunction)) (sourceAt { size := 0, rest := [] } 38 []) ∧
    readRecord .current false (sourceAt { size := 0, rest := [], pending := [identityFunction] } 5
        ([0x9f, 0x00] ++ namedBody ++ [0xff])) =
      .ok (some (namedFunction identityFunction)) (sourceAt { size := 0, rest := [] } 38 [0xff]) := by
  have hsize : uleb128 [0x9f, 0x00] = some (namedBody.length, []) := by decide
  have h : readRecord .current false
      (sourceAt { size := 0, rest := [], pending := [identityFunction] } 5
        ([0x9f, 0x00] ++ namedBody ++ [])) =
      .ok (some (namedFunction identityFunction)) (sourceAt { size := 0, rest := [] } 38 []) := by
    rfl
  obtain ⟨pending, log, hend, hagain⟩ := record_read_from_own_bytes hsize _ 5 h
  obtain ⟨rfl, rfl⟩ : [] = pending ∧ [] = log := by
    simp only [sourceAt, Source.mk.injEq] at hend
    exact hend.2.2.2
  exact ⟨hsize, h, hagain [0xff]⟩

end LuaLift.Proofs
