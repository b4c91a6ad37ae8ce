import LuaLift.Proofs.Accepting
import LuaLift.Proofs.ByteOrders

/-! # Debug sections

`Encode.debug` writes a debug section: a line entry for each instruction, in as many bytes as
the number of lines asks for and in the byte order of the dump, then the names of the upvalues,
each ended by a zero byte, and then the records of the variables. A record says how far the
variable starts behind the one before and how long it lives. The reader gives back what was
written, whatever follows.

A record cannot start before the one in front of it, so what is read is in the order of the
starts. This is why the search for the variable in a slot may stop at the first record that
starts too late. -/
namespace LuaLift.Dump.Encode
open Bytecode

/-- A number in a fixed number of bytes, lowest byte first. -/
def fixed : Nat → Nat → Bytes
  | 0, _ => []
  | width + 1, n => (n % 256).toUInt8 :: fixed width (n / 256)

/-- A number in a fixed number of bytes and a byte order. -/
def fixedIn (order : ByteOrder) (width n : Nat) : Bytes :=
  match order with
  | .little => fixed width n
  | .big => (fixed width n).reverse

/-- Bytes of the line entries of a function with some number of lines. -/
def entryWidth (lineCount : Nat) : Nat :=
  if lineCount < 256 then 1 else if lineCount < 65536 then 2 else 4

def zeroTerminated (name : String) : Bytes := name.toUTF8.toList ++ [0]

/-- The tag of a variable that the compiler made. -/
def internalTag (name : String) : Nat :=
  ([1, 2, 3, 4, 5, 6].find? fun tag => internalName? tag == some name).getD 0

/-- How a record starts: with the name of the variable, or with a tag. -/
def variableTag (v : Variable) : VariableTag :=
  match v.kind with
  | .visible => .name v.name
  | .internal => .internal (internalTag v.name).toUInt8

/-- The records of variables behind one that starts at `lastStart`, and the zero byte that
ends them. -/
def variableRecords (lastStart : Nat) : List Variable → Bytes
  | [] => [0]
  | v :: vs => (variableTag v).bytes ++ (uleb (v.start - lastStart) ++
      (uleb (v.stop - v.start) ++ variableRecords v.start vs))

/-- A debug section. -/
def debug (order : ByteOrder) (lineCount : Nat) (offsets : List Nat) (upvalues : List String)
    (locals : List Variable) : Bytes :=
  offsets.flatMap (fixedIn order (entryWidth lineCount)) ++
    (upvalues.flatMap zeroTerminated ++ variableRecords 0 locals)

end LuaLift.Dump.Encode

namespace LuaLift.Proofs
open Bytecode Dump

/-! ## What fits into a debug section -/

/-- A text of characters below 128 without the character 0. -/
def isPlainName (name : String) : Bool := name.toList.all fun c => 0 < c.toNat && c.toNat < 128

/-- A plain name whose first character cannot be taken for a tag, or one of the names of variables
that the compiler makes. -/
def hasVariableName (v : Variable) : Bool :=
  match v.kind with
  | .visible => isPlainName v.name && v.name.toList.head?.any (7 ≤ ·.toNat)
  | .internal => v.name ∈ ["<index>", "<limit>", "<step>", "<generator>", "<state>", "<control>"]

/-- Variables that can be written: in the order of their starts, with names that can be told from
tags, and none ends before it starts. -/
structure Recordable (vs : List Variable) : Prop where
  sorted : vs.Pairwise (·.start ≤ ·.start)
  named : ∀ v ∈ vs, hasVariableName v
  forward : ∀ v ∈ vs, v.start ≤ v.stop

variable {vs : List Variable} {v : Variable} {s t : Source} {name : String} {rest : Bytes}
  {n width lineCount firstLine : Nat} {order : ByteOrder} {offsets : List Nat} {upvalues : List String}

/-! ## Line entries -/

theorem fixed_length (width n : Nat) : (Encode.fixed width n).length = width := by
  induction width generalizing n with
  | zero => rfl
  | succ width ih => rw [Encode.fixed, List.length_cons, ih]

theorem littleEndian_fixed (h : n < 256 ^ width) : littleEndian (Encode.fixed width n) = n := by
  induction width generalizing n with
  | zero =>
    rw [Nat.pow_zero, Nat.lt_one_iff] at h
    rw [h]
    rfl
  | succ width ih =>
    have hhigh : n / 256 < 256 ^ width := by
      exact Nat.div_lt_of_lt_mul (by omega)
    rw [Encode.fixed, littleEndian, ih hhigh, toNat_toUInt8 (Nat.mod_lt n (by decide))]
    omega

theorem fixedIn_length (order : ByteOrder) (width n : Nat) :
    (Encode.fixedIn order width n).length = width := by
  cases order <;> simp [Encode.fixedIn, fixed_length]

theorem decode_fixedIn (h : n < 256 ^ width) : order.decode (Encode.fixedIn order width n) = n := by
  cases order with
  | little => exact littleEndian_fixed h
  | big => rw [Encode.fixedIn, ByteOrder.decode, List.reverse_reverse, littleEndian_fixed h]

theorem entryWidth_eq (lineCount : Nat) : Encode.entryWidth lineCount = lineWidth lineCount := by
  unfold Encode.entryWidth lineWidth
  by_cases hone : lineCount < 256
  · rw [if_pos hone, if_neg (by omega), if_neg (by omega)]
  · by_cases htwo : lineCount < 65536
    · rw [if_neg hone, if_pos htwo, if_neg (by omega), if_pos (by omega)]
    · rw [if_neg hone, if_neg htwo, if_pos (by omega)]

theorem uint_fixedIn (h : n < 256 ^ width) (hrest : s.rest = Encode.fixedIn s.order width n ++ rest) :
    Read.uint width s = .ok n { s with rest := rest } :=
  uint_ok_iff.mpr ⟨_, fixedIn_length _ _ _, hrest, decode_fixedIn h, rfl⟩

theorem times_fixedIn (h : ∀ n ∈ offsets, n < 256 ^ width)
    (hrest : s.rest = offsets.flatMap (Encode.fixedIn s.order width) ++ rest) :
    Read.times offsets.length (Read.uint width) s = .ok offsets { s with rest := rest } := by
  induction offsets generalizing s with
  | nil =>
    obtain rfl : s.rest = rest := hrest
    rfl
  | cons n offsets ih =>
    rw [List.flatMap_cons, List.append_assoc] at hrest
    rw [List.length_cons, Read.times, run_bind (uint_fixedIn (h n List.mem_cons_self) hrest),
      run_bind (ih (fun m hm => h m (List.mem_cons_of_mem _ hm)) rfl)]
    rfl

theorem readLines_entries (h : ∀ n ∈ offsets, n < 256 ^ Encode.entryWidth lineCount)
    (hrest : s.rest = offsets.flatMap (Encode.fixedIn s.order (Encode.entryWidth lineCount)) ++ rest) :
    readLines firstLine lineCount offsets.length s =
      .ok (0 :: offsets.map (firstLine + ·)) { s with rest := rest } := by
  rw [entryWidth_eq] at h hrest
  rw [readLines, run_bind (times_fixedIn h hrest)]
  rfl

/-! ## Names -/

theorem toUTF8_toList (h : ∀ c ∈ name.toList, c.toNat < 128) :
    name.toUTF8.toList = name.toList.map fun c => c.toNat.toUInt8 := by
  have hbytes : name.toUTF8.toList = name.toList.flatMap String.utf8EncodeChar := by
    rw [String.toUTF8_eq_toByteArray, ← String.utf8Encode_toList, ByteArray.toList, toList_loop]
    simp [List.utf8Encode]
  rw [hbytes]
  generalize name.toList = cs at h
  induction cs with
  | nil => rfl
  | cons c cs ih =>
    have hc : c.toNat < 128 := h c List.mem_cons_self
    have hsmall : c.val ≤ 127 := by
      exact Nat.le_of_lt_succ hc
    rw [List.flatMap_cons, String.utf8EncodeChar_eq_singleton (Char.utf8Size_eq_one_iff.mpr hsmall),
      ih fun d hd => h d (List.mem_cons_of_mem _ hd), List.map_cons, List.singleton_append]
    rfl

theorem isPlainName_iff : isPlainName name ↔ ∀ c ∈ name.toList, 0 < c.toNat ∧ c.toNat < 128 := by
  simp [isPlainName]

theorem ofNat_toUInt8 {c : Char} (h : c.toNat < 128) : Char.ofNat c.toNat.toUInt8.toNat = c := by
  rw [toNat_toUInt8 (by omega), Char.ofNat_toNat]

theorem takes_asciiText (h : isPlainName name) :
    Takes (Read.asciiText name.toUTF8.toList) [] [] name := by
  have hchars := isPlainName_iff.mp h
  rw [toUTF8_toList fun c hc => (hchars c hc).2]
  have hsmall : (name.toList.map fun c => c.toNat.toUInt8).all (· < 0x80) := by
    rw [List.all_map, List.all_eq_true]
    intro c hc
    have := (hchars c hc).2
    simpa using (toUInt8_lt (by omega)).mpr this
  have hback : (name.toList.map fun c => c.toNat.toUInt8).map (fun b => Char.ofNat b.toNat) =
      name.toList := by
    rw [List.map_map]
    exact (List.map_congr_left fun c hc => ofNat_toUInt8 (hchars c hc).2).trans (List.map_id _)
  rw [Read.asciiText, if_pos hsmall, hback, String.ofList_toList]
  exact .pure name

theorem takes_zeroTerminated {bs : Bytes} (h : ∀ b ∈ bs, b ≠ 0) :
    Takes Read.zeroTerminated (bs ++ [0]) [] bs := by
  intro s rest others _ hr hp
  obtain rfl : s.pending = others := hp
  have hspan : s.rest.span (· != 0) = (bs, 0 :: rest) := by
    rw [hr, List.append_assoc, List.span_eq_takeWhile_dropWhile,
      List.takeWhile_append_of_pos (by simpa using h),
      List.dropWhile_append_of_pos (by simpa using h)]
    simp
  change EStateM.Result.ok (s.rest.span (· != 0)).1 { s with rest := (s.rest.span (· != 0)).2.drop 1 } = _
  rw [hspan]
  rfl

theorem byte_ne_zero (h : isPlainName name) : ∀ b ∈ name.toUTF8.toList, b ≠ 0 := by
  have hchars := isPlainName_iff.mp h
  rw [toUTF8_toList fun c hc => (hchars c hc).2]
  intro b hb hzero
  obtain ⟨c, hc, rfl⟩ := List.mem_map.mp hb
  have hnat : c.toNat.toUInt8.toNat = 0 := by rw [hzero]; rfl
  obtain ⟨hpos, hsmall⟩ := hchars c hc
  rw [toNat_toUInt8 (by omega)] at hnat
  omega

theorem takes_name (h : isPlainName name) :
    Takes (do Read.asciiText (← Read.zeroTerminated)) (Encode.zeroTerminated name) [] name :=
  (takes_zeroTerminated (byte_ne_zero h)).finish (takes_asciiText h)

/-! ## Variables -/

theorem internalName?_internalTag
    (h : name ∈ ["<index>", "<limit>", "<step>", "<generator>", "<state>", "<control>"]) :
    internalName? (Encode.internalTag name) = some name ∧ Encode.internalTag name ∈ [1, 2, 3, 4, 5, 6] := by
  revert name
  decide

theorem internalName?_eq_none (h : 7 ≤ n) : internalName? n = none := by
  unfold internalName?
  split <;> first | rfl | omega

theorem takes_variableName (h : hasVariableName v) :
    ∃ tag bytes, (Encode.variableTag v).bytes = tag :: bytes ∧ tag.toNat ≠ 0 ∧
      Takes (readVariableName tag.toNat) bytes [] (v.name, v.kind) := by
  unfold hasVariableName at h
  unfold Encode.variableTag readVariableName
  cases hkind : v.kind with
  | internal =>
    rw [hkind] at h
    obtain ⟨hname, htag⟩ := internalName?_internalTag (by simpa using h)
    have hnat : (Encode.internalTag v.name).toUInt8.toNat = Encode.internalTag v.name :=
      toNat_toUInt8 (by generalize Encode.internalTag v.name = k at htag; simp at htag; omega)
    refine ⟨_, [], rfl, ?_, ?_⟩
    · rw [hnat]
      intro hzero
      rw [hzero] at htag
      simp at htag
    · rw [hnat, hname]
      exact .pure _
  | visible =>
    rw [hkind] at h
    simp only [Bool.and_eq_true] at h
    obtain ⟨hplain, hfirst⟩ := h
    obtain ⟨c, hc, hseven⟩ : ∃ c, v.name.toList.head? = some c ∧ 7 ≤ c.toNat := by
      simpa [Option.any_eq_true] using hfirst
    obtain ⟨cs, hcs⟩ := List.head?_eq_some_iff.mp hc
    have hsmall : c.toNat < 128 := (isPlainName_iff.mp hplain c (by simp [hcs])).2
    have hbytes : v.name.toUTF8.toList = c.toNat.toUInt8 :: cs.map fun c => c.toNat.toUInt8 := by
      rw [toUTF8_toList fun c hc => (isPlainName_iff.mp hplain c hc).2, hcs, List.map_cons]
    have hnat : c.toNat.toUInt8.toNat = c.toNat := toNat_toUInt8 (by omega)
    have hall := byte_ne_zero hplain
    have htext := takes_asciiText hplain
    rw [hbytes] at hall htext
    refine ⟨c.toNat.toUInt8, cs.map (fun c => c.toNat.toUInt8) ++ [0], ?_, by omega, ?_⟩
    · rw [Encode.VariableTag.bytes, hbytes, List.cons_append]
    · rw [hnat, internalName?_eq_none hseven]
      exact (takes_zeroTerminated fun b hb => hall b (List.mem_cons_of_mem _ hb)).finish
        (htext.map (·, VariableKind.visible))

theorem takes_variable {lastStart : Nat} {tag : UInt8} {bytes : Bytes} (hlast : lastStart ≤ v.start)
    (hforward : v.start ≤ v.stop) (hname : Takes (readVariableName tag.toNat) bytes [] (v.name, v.kind)) :
    Takes (readVariable lastStart tag.toNat)
      (bytes ++ (Encode.uleb (v.start - lastStart) ++ Encode.uleb (v.stop - v.start))) [] v := by
  refine hname.bind ((takes_uleb _).bind ((takes_uleb _).finish ?_))
  have hstart : lastStart + (v.start - lastStart) = v.start := by omega
  have hstop : v.start + (v.stop - v.start) = v.stop := by omega
  rw [hstart, hstop]
  exact .pure v

theorem takes_variables {fuel lastStart : Nat} (h : Recordable vs) (hlast : ∀ v ∈ vs, lastStart ≤ v.start)
    (hfuel : vs.length < fuel) :
    Takes (readVariables fuel lastStart) (Encode.variableRecords lastStart vs) [] vs := by
  induction vs generalizing fuel lastStart with
  | nil =>
    obtain ⟨fuel, rfl⟩ := Nat.exists_eq_add_of_le' (show 1 ≤ fuel from hfuel)
    exact (takes_byte 0).finish (.pure [])
  | cons v vs ih =>
    obtain ⟨fuel, rfl⟩ := Nat.exists_eq_add_of_le' (Nat.lt_of_lt_of_le (Nat.succ_pos _) hfuel)
    obtain ⟨hbefore, hsorted⟩ := List.pairwise_cons.mp h.sorted
    obtain ⟨tag, bytes, hbytes, hzero, hname⟩ := takes_variableName (h.named v List.mem_cons_self)
    have hothers : Takes (readVariables fuel v.start) (Encode.variableRecords v.start vs) [] vs :=
      ih ⟨hsorted, fun w hw => h.named w (List.mem_cons_of_mem _ hw),
        fun w hw => h.forward w (List.mem_cons_of_mem _ hw)⟩ hbefore (by simpa using hfuel)
    have hrecord := takes_variable (hlast v List.mem_cons_self) (h.forward v List.mem_cons_self) hname
    have hsplit : Encode.variableRecords lastStart (v :: vs) = [tag] ++ ((bytes ++
        (Encode.uleb (v.start - lastStart) ++ Encode.uleb (v.stop - v.start))) ++
        Encode.variableRecords v.start vs) := by
      rw [Encode.variableRecords, hbytes]
      simp
    rw [readVariables_succ, hsplit]
    refine (takes_byte tag).bind ?_
    rw [if_neg (by simpa using hzero)]
    exact hrecord.bind (hothers.map (v :: ·))

theorem length_le_variableRecords (lastStart : Nat) (vs : List Variable) :
    vs.length < (Encode.variableRecords lastStart vs).length := by
  induction vs generalizing lastStart with
  | nil => exact Nat.one_pos
  | cons v vs ih =>
    have := ih v.start
    have hpos : 0 < (Encode.variableTag v).bytes.length := by
      cases Encode.variableTag v <;> simp [Encode.VariableTag.bytes]
    simp only [Encode.variableRecords, List.length_append, List.length_cons]
    omega

theorem takes_names (hnames : ∀ u ∈ upvalues, isPlainName u) (h : Recordable vs) :
    Takes (readNames upvalues.length)
      (upvalues.flatMap Encode.zeroTerminated ++ Encode.variableRecords 0 vs) [] (upvalues, vs) := by
  have hlocals : Takes (do readVariables ((← get).rest.length + 1) 0)
      (Encode.variableRecords 0 vs) [] vs := by
    intro s rest others ho hr hp
    refine takes_variables h (fun v _ => Nat.zero_le _) ?_ s rest others ho hr hp
    have := length_le_variableRecords 0 vs
    rw [hr, List.length_append]
    omega
  exact (takes_times_alone fun u hu => takes_name (hnames u hu)).bind (hlocals.map (upvalues, ·))

/-- A debug section is read back from its own bytes, in the byte order of the dump and whatever
follows: the lines of the instructions behind line 0 of the function header, the names of the
upvalues and the variables. -/
theorem readDebug_debug (firstLine : Nat) (hoffsets : ∀ n ∈ offsets, n < 256 ^ Encode.entryWidth lineCount)
    (hnames : ∀ u ∈ upvalues, isPlainName u) (hlocals : Recordable vs)
    (hrest : s.rest = Encode.debug s.order lineCount offsets upvalues vs ++ rest) :
    readDebug firstLine lineCount offsets.length upvalues.length s =
      .ok ⟨0 :: offsets.map (firstLine + ·), upvalues, vs⟩ { s with rest := rest } := by
  rw [Encode.debug, List.append_assoc] at hrest
  let names := (upvalues.flatMap Encode.zeroTerminated ++ Encode.variableRecords 0 vs) ++ rest
  -- names do not depend on the byte order, so what is read in one is read in the other
  have hlittle := takes_names hnames hlocals { size := 0, rest := names } rest [] rfl rfl rfl
  have hread : readNames upvalues.length { s with rest := names } = .ok (upvalues,
    vs) { s with rest := rest } :=
    (bytewise_names upvalues.length).ok hlittle rfl
  rw [readDebug_eq, run_bind (readLines_entries hoffsets hrest), run_bind hread]
  rfl

/-- Variables of a function with a loop: two with a name, between them those of the loop. -/
def loopVariables : List Variable :=
  [⟨"total", .visible, 2, 9⟩, ⟨"<index>", .internal, 4, 8⟩, ⟨"<limit>", .internal, 4, 8⟩,
    ⟨"<step>", .internal, 4, 8⟩, ⟨"i", .visible, 5, 7⟩]

/-- The debug section of a function of 300 lines, the higher byte first: an entry of two bytes for
each of two instructions, an upvalue, and five variables. -/
def loopSection : Bytes :=
  [0x00, 0x01, 0x01, 0x02] ++ [0x75, 0x70, 0x00] ++ [0x74, 0x6f, 0x74, 0x61, 0x6c, 0x00, 0x02, 0x07] ++
    [0x01, 0x02, 0x04, 0x02, 0x00, 0x04, 0x03, 0x00, 0x04] ++ [0x69, 0x00, 0x01, 0x02] ++ [0x00]

/-- The section in front of two more bytes. -/
theorem readDebug_loopSection :
    Encode.debug .big 300 [1, 258] ["up"] loopVariables = loopSection ∧
    readDebug 10 300 2 1 ⟨0, loopSection ++ [0x7f, 0x00], .big, [], []⟩ =
      .ok ⟨[0, 11, 268], ["up"], loopVariables⟩ ⟨0, [0x7f, 0x00], .big, [], []⟩ := by
  have hsection : Encode.debug .big 300 [1, 258] ["up"] loopVariables = loopSection := by decide +kernel
  refine ⟨hsection, ?_⟩
  rw [← hsection]
  exact @readDebug_debug _ _ _ _ [1, 258] ["up"] 10 (by decide) (by decide)
    ⟨by decide, by decide, by decide⟩ rfl

/-! ## The variable in a slot -/

/-- The variables that are live at an address, in the order of their records. -/
def liveAt (vs : List Variable) (address : Int) : List Variable :=
  vs.filter fun v => v.start ≤ address ∧ address < v.stop

theorem variableAt_eq_liveAt (h : vs.Pairwise (·.start ≤ ·.start)) (address : Int) (slot : Nat) :
    variableAt address vs slot = (liveAt vs address)[slot]? := by
  induction vs generalizing slot with
  | nil => rfl
  | cons v vs ih =>
    obtain ⟨hbefore, hsorted⟩ := List.pairwise_cons.mp h
    unfold variableAt
    split
    · -- every later record starts too late as well
      have hnone : liveAt (v :: vs) address = [] := by
        refine List.filter_eq_nil_iff.mpr fun w hw => ?_
        have hstart : v.start ≤ w.start := by
          rcases List.mem_cons.mp hw with rfl | hw
          · exact Nat.le_refl _
          · exact hbefore w hw
        simp only [decide_eq_true_eq]
        omega
      rw [hnone]
      rfl
    · split
      · rw [liveAt, List.filter_cons_of_neg (by simp; omega)]
        exact ih hsorted slot
      · rw [liveAt, List.filter_cons_of_pos (by simp; omega)]
        cases slot with
        | zero => rfl
        | succ slot =>
          rw [if_neg (by omega), List.getElem?_cons_succ, show ((slot + 1 : Nat) : Int) - 1 = slot by omega]
          exact ih hsorted slot

theorem gives_sorted (fuel lastStart : Nat) : Gives (readVariables fuel lastStart) fun vs =>
    vs.Pairwise (·.start ≤ ·.start) ∧ ∀ v ∈ vs, lastStart ≤ v.start := by
  induction fuel generalizing lastStart with
  | zero =>
    intro s t vs hr
    cases hr
  | succ fuel ih =>
    rw [readVariables_succ]
    refine gives_any.bind fun tag _ => ?_
    split
    · exact gives_pure ⟨.nil, by simp⟩
    · have hstart : Gives (readVariable lastStart tag) (lastStart ≤ ·.start) :=
        gives_any.bind fun _ _ => gives_any.bind fun delta _ => gives_any.bind fun _ _ =>
          gives_pure (Nat.le_add_right lastStart delta)
      refine hstart.bind fun v hv => (ih v.start).bind fun vs hvs => gives_pure ⟨?_, ?_⟩
      · exact List.pairwise_cons.mpr ⟨hvs.2, hvs.1⟩
      · intro w hw
        rcases List.mem_cons.mp hw with rfl | hw
        · exact hv
        · exact Nat.le_trans hv (hvs.2 w hw)

theorem gives_sorted_debug (firstLine lineCount instructionCount upvalueCount : Nat) :
    Gives (readDebug firstLine lineCount instructionCount upvalueCount) fun d =>
      d.locals.Pairwise (·.start ≤ ·.start) := by
  refine gives_any.bind fun lines _ => gives_any.bind fun upvalues _ => ?_
  intro s t d hr
  rw [run_get] at hr
  obtain ⟨vs, m, hvs, hr⟩ := ok_of_bind hr
  cases hr
  exact (gives_sorted _ 0 hvs).1

/-- In debug information that was read, slot `n` holds the `n`-th of the variables that are live at
an address, and nothing if no more than `n` are. -/
theorem variableIn?_of_readDebug {firstLine lineCount instructionCount upvalueCount : Nat} {d : DebugInfo}
    (h : readDebug firstLine lineCount instructionCount upvalueCount s = .ok d t) (address : Int) (n : Nat) :
    d.variableIn? address n = (liveAt d.locals address)[n]? ∧
      (d.variableIn? address n = none ↔ (liveAt d.locals address).length ≤ n) := by
  have hslot := variableAt_eq_liveAt (gives_sorted_debug _ _ _ _ h) address n
  refine ⟨hslot, ?_⟩
  rw [DebugInfo.variableIn?, hslot, List.getElem?_eq_none_iff]

/-- At address 6 all variables of that section are live, at address 3 only the first one is. -/
theorem variableIn?_loopSection : ∃ d t,
    readDebug 10 300 2 1 ⟨0, loopSection, .big, [], []⟩ = .ok d t ∧
      d.variableIn? 6 4 = some ⟨"i", .visible, 5, 7⟩ ∧ d.variableIn? 3 1 = none := by
  have h : readDebug 10 300 2 1 ⟨0, loopSection, .big, [], []⟩ =
      .ok ⟨[0, 11, 268], ["up"], loopVariables⟩ ⟨0, [], .big, [], []⟩ := by rfl
  exact ⟨_, _, h, (variableIn?_of_readDebug h 6 4).1.trans (by decide),
    (variableIn?_of_readDebug h 3 1).2.mpr (by decide)⟩

end LuaLift.Proofs
