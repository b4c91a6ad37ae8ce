import LuaLift.Proofs.RecordSequences

/-! # Dumps in the other byte order

`swapOrder` turns a dump into one with the other byte order: the flag for the byte order in the
header is turned over, and each instruction word, each reference to an upvalue and each line
entry has its bytes reversed. All other bytes stay. The two dumps are read as the same tree.

`Mirrors r w` says that `w` gives the bytes from which `r` reads the same in the other byte
order. Readers that do not ask for the byte order are mirrored by copying. -/
namespace LuaLift.Proofs
open Bytecode Dump

variable {α β : Type}

/-! ## The dump in the other byte order -/

def ByteOrder.other : ByteOrder → ByteOrder
  | .little => .big
  | .big => .little

/-- Reads with `r` and gives the bytes that were read besides. -/
def withBytes (r : Read α) : Read (α × Bytes) := do
  let before := (← get).rest
  let a ← r
  return (a, before.take (before.length - (← get).rest.length))

/-- The bytes that `r` reads. -/
def copied (r : Read α) : Read Bytes := do return (← withBytes r).2

/-- The bytes that `r` reads, the last one first. -/
def reversed (r : Read α) : Read Bytes := do return (← copied r).reverse

/-- The bytes of several parts, one behind the other. -/
def successive : List (Read Bytes) → Read Bytes
  | [] => return []
  | w :: ws => do return (← w) ++ (← successive ws)

/-- The debug section: a line entry for each instruction, then names. -/
def swapDebug (c : Counts) : Read Bytes :=
  if c.debugSize == 0 then return []
  else successive [
    successive (List.replicate c.instructionCount (reversed (Read.uint (lineWidth c.lineCount)))),
    copied (readNames c.upvalueCount)]

/-- What follows the counts of a record: instruction words, references to upvalues, constants and
the debug section. -/
def swapContents (numbering : Numbering) (c : Counts) : Read Bytes :=
  successive [
    successive (List.replicate c.instructionCount (reversed (readInstruction numbering c.complexCount))),
    successive (List.replicate c.upvalueCount (reversed (Read.uint 2))),
    copied (Read.times c.complexCount readComplex),
    copied (Read.times c.numberCount readNumber),
    swapDebug c]

/-- What follows the flags of a record. -/
def swapBody (numbering : Numbering) (stripped : Bool) : Read Bytes := do
  let (c, counts) ← withBytes (readCounts stripped)
  return counts ++ (← swapContents numbering c)

def swapRecord (numbering : Numbering) (stripped : Bool) : Read Bytes :=
  successive [copied Read.uleb, copied Read.byte, swapBody numbering stripped]

/-- The records as far as they are read in full, then the bytes that are left. -/
def swapRecords (numbering : Numbering) (stripped : Bool) : Nat → Read Bytes
  | 0 => return []
  | fuel + 1 => do
    let s ← get
    match readRecord numbering stripped s with
    | .ok (some p) _ => do
      let record ← swapRecord numbering stripped
      modify (withFunction p)
      return record ++ (← swapRecords numbering stripped fuel)
    | _ => return s.rest

/-- Turns over the flag for the byte order, the lowest bit of the byte behind magic number and
version. -/
def flipOrderFlag (head : Bytes) : Bytes := head.modify 4 (· ^^^ 1)

def swapParts (numbering : Numbering) : Read Bytes := do
  let (found, head) ← withBytes (readHeader "")
  match found with
  | none => return head ++ (← get).rest
  | some header =>
    modify (behindHeader header)
    return flipOrderFlag head ++
      (← swapRecords numbering header.flags.stripped (← get).rest.length)

/-- A dump in the other byte order. What cannot be read stays as it is. -/
def swapOrder (numbering : Numbering) (bytes : Bytes) : Bytes :=
  match swapParts numbering (.ofBytes bytes) with
  | .ok swapped _ => swapped
  | .error _ _ => bytes

/-! ## Readers that do not ask for the byte order -/

/-- The reader of the other byte order in front of `rest`. -/
def mirror (s : Source) (rest : Bytes) : Source := { s with order := ByteOrder.other s.order, rest := rest }

/-- A reader reads the same bytes in the other byte order. -/
def Blind (r : Read α) : Prop := ∀ ⦃s t : Source⦄ ⦃a : α⦄, r s = .ok a t →
  ∃ used, s.rest = used ++ t.rest ∧ ∀ rest, r (mirror s (used ++ rest)) = .ok a (mirror t rest)

variable {rest : Bytes} {n : Nat} {w : Read Bytes} {r : Read α} {s t : Source} {a : α} {f : α → Read β}

theorem Bytewise.again (h : Bytewise r) (hlocal : Local r) (hr : r s = .ok a t) :
    ∃ used, s.rest = used ++ t.rest ∧
      ∀ s' rest, s'.rest = used ++ rest → r s' = .ok a { s' with rest := rest } := by
  obtain ⟨used, hused⟩ := hlocal.consumes hr
  exact ⟨used, hused.rest, fun s' rest hrest => h.ok (hused.again s.size rest) hrest⟩

theorem Bytewise.blind (h : Bytewise r) (hlocal : Local r) : Blind r := by
  intro s t a hr
  obtain ⟨used, hused, hagain⟩ := h.again hlocal hr
  refine ⟨used, hused, fun rest => ?_⟩
  rw [hagain (mirror s (used ++ rest)) rest rfl, h.state hr]
  rfl

theorem Blind.mirror (h : Blind r) (hr : r s = .ok a t) : r (mirror s s.rest) = .ok a (mirror t t.rest) := by
  obtain ⟨used, hrest, hagain⟩ := h hr
  rw [hrest]
  exact hagain t.rest

theorem Blind.bind (h : Blind r) (h' : ∀ a, Blind (f a)) : Blind (r >>= f) := by
  intro s t b hr
  obtain ⟨a, m, hfirst, hsecond⟩ := ok_of_bind hr
  obtain ⟨xs, hxs, hagain⟩ := h hfirst
  obtain ⟨ys, hys, hagain'⟩ := h' a hsecond
  refine ⟨xs ++ ys, by rw [hxs, hys, List.append_assoc], fun rest => ?_⟩
  rw [List.append_assoc, run_bind (hagain (ys ++ rest))]
  exact hagain' rest

theorem Blind.map (h : Blind r) (g : α → β) : Blind (do return g (← r)) :=
  h.bind fun a => (bytewise_pure (g a)).blind (local_pure (g a))

theorem Blind.times (h : Blind r) (n : Nat) : Blind (Read.times n r) := by
  induction n with
  | zero => exact (bytewise_pure []).blind (local_pure [])
  | succ n ih => exact h.bind fun x => ih.map (x :: ·)

theorem blind_uleb : Blind Read.uleb := bytewise_uleb.blind local_uleb

theorem blind_byte : Blind Read.byte := bytewise_byte.blind local_byte

theorem blind_takePending : Blind takePending := by
  intro s t p hr
  obtain ⟨hpending, ht⟩ := takePending_ok_iff.mp hr
  refine ⟨[], by rw [ht]; rfl, fun rest => takePending_ok_iff.mpr ⟨hpending, ?_⟩⟩
  rw [ht]
  rfl

theorem blind_complex : Blind readComplex := by
  have hdouble := bytewise_double.blind local_double
  refine blind_uleb.bind fun tag => ?_
  split
  · exact blind_takePending.map _
  · exact (bytewise_table.blind local_table).map _
  · exact hdouble.bind fun re => hdouble.map _
  · exact hdouble.map _
  · exact hdouble.map _
  · exact ((bytewise_text _).blind (local_text _)).map _

theorem local_names (upvalueCount : Nat) : Local (readNames upvalueCount) := by
  have hname : LocalIf true (do Read.asciiText (← Read.zeroTerminated)) :=
    local_zeroTerminated.bind fun bs => (local_asciiText bs).localIf
  refine (hname.times upvalueCount).before (fun upvalues => ?_) fun upvalues => ?_
  · exact (local_variables 0).map (upvalues, ·)
  · exact (needsInput_variables 0).bind

/-! ## Mirrored readers -/

/-- Wherever `r` succeeds, `w` reads the same bytes and gives as many bytes from which `r` reads
the same in the other byte order. -/
def Mirrors (r : Read α) (w : Read Bytes) : Prop := ∀ ⦃s t : Source⦄ ⦃a : α⦄, r s = .ok a t →
  ∃ used swapped, w s = .ok swapped t ∧ s.rest = used ++ t.rest ∧ swapped.length = used.length ∧
    ∀ rest, r (mirror s (swapped ++ rest)) = .ok a (mirror t rest)

theorem run_withBytes {used : Bytes} (hr : r s = .ok a t) (hrest : s.rest = used ++ t.rest) :
    withBytes r s = .ok (a, used) t := by
  have hused : s.rest.take (s.rest.length - t.rest.length) = used := by simp [hrest]
  rw [withBytes, run_get, run_bind hr, run_get, hused]
  rfl

theorem Blind.mirrors (h : Blind r) : Mirrors r (copied r) := by
  intro s t a hr
  obtain ⟨used, hrest, hagain⟩ := h hr
  refine ⟨used, used, ?_, hrest, rfl, hagain⟩
  rw [copied, run_bind (run_withBytes hr hrest)]
  rfl

theorem Mirrors.bind {w' : Read Bytes} (h : Mirrors r w) (h' : ∀ a, Mirrors (f a) w') :
    Mirrors (r >>= f) (do return (← w) ++ (← w')) := by
  intro s t b hr
  obtain ⟨a, m, hfirst, hsecond⟩ := ok_of_bind hr
  obtain ⟨xs, xs', hw, hxs, hlength, hagain⟩ := h hfirst
  obtain ⟨ys, ys', hw', hys, hlength', hagain'⟩ := h' a hsecond
  refine ⟨xs ++ ys, xs' ++ ys', ?_, by rw [hxs, hys, List.append_assoc], ?_, fun rest => ?_⟩
  · rw [run_bind hw, run_bind hw']
    rfl
  · simp only [List.length_append, hlength, hlength']
  · rw [List.append_assoc, run_bind (hagain (ys' ++ rest))]
    exact hagain' rest

theorem Blind.followed {w : α → Read Bytes} (h : Blind r) (h' : ∀ a, Mirrors (f a) (w a)) :
    Mirrors (r >>= f) (do
      let (a, bytes) ← withBytes r
      return bytes ++ (← w a)) := by
  intro s t b hr
  obtain ⟨a, m, hfirst, hsecond⟩ := ok_of_bind hr
  obtain ⟨xs, hxs, hagain⟩ := h hfirst
  obtain ⟨ys, ys', hw, hys, hlength, hagain'⟩ := h' a hsecond
  refine ⟨xs ++ ys, xs ++ ys', ?_, by rw [hxs, hys, List.append_assoc], ?_, fun rest => ?_⟩
  · rw [run_bind (run_withBytes hfirst hxs)]
    exact (run_bind hw).trans rfl
  · simp only [List.length_append, hlength]
  · rw [List.append_assoc, run_bind (hagain (ys' ++ rest))]
    exact hagain' rest

theorem mirrors_pure (a : α) : Mirrors (pure a) (pure []) := by
  intro s t b hr
  cases hr
  exact ⟨[], [], rfl, rfl, rfl, fun _ => rfl⟩

theorem Mirrors.map (h : Mirrors r w) (g : α → β) : Mirrors (do return g (← r)) w := by
  intro s t b hr
  obtain ⟨a, m, hfirst, hsecond⟩ := ok_of_bind hr
  cases hsecond
  obtain ⟨used, swapped, hw, hrest, hlength, hagain⟩ := h hfirst
  exact ⟨used, swapped, hw, hrest, hlength, fun rest => (run_bind (hagain rest)).trans rfl⟩

theorem Mirrors.times (h : Mirrors r w) (n : Nat) :
    Mirrors (Read.times n r) (successive (List.replicate n w)) := by
  induction n with
  | zero => exact mirrors_pure []
  | succ n ih => exact h.bind fun x => ih.map (x :: ·)

/-! ## Fields of a fixed width -/

theorem decode_reverse (order : ByteOrder) (bs : Bytes) :
    (ByteOrder.other order).decode bs.reverse = order.decode bs := by
  cases order
  · exact congrArg littleEndian bs.reverse_reverse
  · rfl

/-- What reads a number of a fixed width first, and nothing more, is mirrored by the bytes of that
number in reverse. -/
theorem mirrors_field {f : Nat → Read α}
    (hf : ∀ ⦃s t : Source⦄ ⦃v : Nat⦄ ⦃a : α⦄, f v s = .ok a t → t.rest = s.rest ∧ ∀ rest,
      f v (mirror s rest) = .ok a (mirror t rest)) :
    Mirrors (Read.uint n >>= f) (reversed (Read.uint n >>= f)) := by
  intro s t a hr
  obtain ⟨v, m, hfirst, hsecond⟩ := ok_of_bind hr
  obtain ⟨bs, hlength, hrest, hv, hm⟩ := uint_ok_iff.mp hfirst
  obtain ⟨hsame, hagain⟩ := hf hsecond
  rw [← hsame] at hrest
  refine ⟨bs, bs.reverse, ?_, hrest, by simp, fun rest => ?_⟩
  · have hcopied : copied (Read.uint n >>= f) s = .ok bs t := by
      rw [copied, run_bind (run_withBytes hr hrest)]
      rfl
    rw [reversed, run_bind hcopied]
    rfl
  · have hmirror : Read.uint n (mirror s (bs.reverse ++ rest)) = .ok v (mirror m rest) := by
      refine uint_ok_iff.mpr ⟨bs.reverse, by simp [hlength], rfl, (decode_reverse _ _).trans hv, ?_⟩
      rw [hm]
      rfl
    rw [run_bind hmirror]
    exact hagain rest

theorem mirrors_uint (n : Nat) : Mirrors (Read.uint n) (reversed (Read.uint n)) := by
  have hfield := mirrors_field (n := n) (f := pure) fun s t v a h => by
    cases h
    exact ⟨rfl, fun _ => rfl⟩
  rwa [bind_pure] at hfield

theorem mirrors_instruction (numbering : Numbering) (count : Nat) :
    Mirrors (readInstruction numbering count) (reversed (readInstruction numbering count)) := by
  refine mirrors_field fun s t word i h => ?_
  split at h
  · rename_i hunknown
    cases h
    refine ⟨rfl, fun rest => ?_⟩
    rw [if_pos hunknown]
    rfl
  · rename_i hknown
    cases h
    refine ⟨rfl, fun rest => ?_⟩
    rw [if_neg hknown]
    rfl

/-! ## Records -/

theorem mirrors_debug (c : Counts) : Mirrors (readDebugSection c) (swapDebug c) := by
  unfold readDebugSection swapDebug
  split
  · exact mirrors_pure _
  · rw [readDebug_eq]
    have hlines : Mirrors (readLines c.firstLine c.lineCount c.instructionCount)
        (successive (List.replicate c.instructionCount (reversed (Read.uint (lineWidth c.lineCount))))) :=
      ((mirrors_uint _).times _).map _
    have hnames := ((bytewise_names c.upvalueCount).blind (local_names _)).mirrors
    exact hlines.bind fun lines =>
      (hnames.bind fun names => mirrors_pure (DebugInfo.mk lines names.1 names.2))

theorem mirrors_contents (numbering : Numbering) (flags : PrototypeFlags) (c : Counts) :
    Mirrors (readContents numbering flags c) (swapContents numbering c) := by
  have hcomplex := (blind_complex.times c.complexCount).mirrors
  have hnumbers := ((bytewise_number.blind local_number).times c.numberCount).mirrors
  refine ((mirrors_instruction numbering c.complexCount).times _).bind fun instructions => ?_
  refine ((mirrors_uint 2).times _).bind fun upvalues => hcomplex.bind fun complex => ?_
  exact hnumbers.bind fun numbers => (mirrors_debug c).bind fun debug => mirrors_pure _

theorem mirrors_body (numbering : Numbering) (stripped : Bool) (flags : PrototypeFlags) :
    Mirrors (readBody numbering stripped flags) (swapBody numbering stripped) := by
  rw [readBody_eq]
  exact ((bytewise_counts stripped).blind (local_counts stripped)).followed
    fun c => mirrors_contents numbering flags c

variable {numbering : Numbering} {stripped : Bool} {s t u : Source} {p : Prototype}

theorem offset_mirror (h : rest.length = t.rest.length) : (mirror t rest).offset = t.offset := by
  rw [Source.offset, Source.offset, mirror, h]

theorem mirrors_record (h : readRecord numbering stripped s = .ok (some p) t) :
    ∃ used swapped, swapRecord numbering stripped s = .ok swapped t ∧ s.rest = used ++ t.rest ∧
      swapped.length = used.length ∧ ∀ rest, rest.length = t.rest.length →
        readRecord numbering stripped (mirror s (swapped ++ rest)) = .ok (some p) (mirror t rest) := by
  obtain ⟨size, bits, flags, start, inner, hrun⟩ := readRecord_iff.mp h
  obtain ⟨xs, xs', hw, hxs, hlength, hsize⟩ := blind_uleb.mirrors hrun.readSize
  obtain ⟨ys, ys', hw', hys, hlength', hbits⟩ := blind_byte.mirrors hrun.readBits
  obtain ⟨zs, zs', hw'', hzs, hlength'', hbody⟩ := mirrors_body numbering stripped flags hrun.readBody
  refine ⟨xs ++ (ys ++ zs), xs' ++ (ys' ++ (zs' ++ [])), ?_, ?_, ?_, fun rest hrest => ?_⟩
  · have hlast : successive [swapBody numbering stripped] inner = .ok (zs' ++ []) t := by
      rw [successive, run_bind hw'']
      rfl
    have hflags : successive [copied Read.byte, swapBody numbering stripped] start =
        .ok (ys' ++ (zs' ++ [])) t := by
      rw [successive, run_bind hw', run_bind hlast]
      rfl
    rw [swapRecord, successive, run_bind hw, run_bind hflags]
    rfl
  · rw [hxs, hys, hzs]
    simp only [List.append_assoc]
  · simp only [List.length_append, List.length_nil, hlength, hlength', hlength'', Nat.add_zero]
  · rw [List.append_nil, List.append_assoc, List.append_assoc]
    have hstart : (ys' ++ (zs' ++ rest)).length = start.rest.length := by
      rw [hys, hzs]
      simp only [List.length_append, hlength', hlength'', hrest]
    -- what is checked besides, that the bytes suffice and are all read, is a matter of lengths
    refine readRecord_iff.mpr ⟨size, bits, flags, _, _, hsize _, hrun.nonempty, ?_, hbits _,
      hrun.knownFlags, hbody rest, ?_⟩
    · have havailable := isSome_splitExactly.mp hrun.available
      rw [← hstart] at havailable
      exact isSome_splitExactly.mpr havailable
    · rw [offset_mirror hrest, offset_mirror hstart]
      exact hrun.consumed

theorem NoRecord.mirror (h : NoRecord s t) : NoRecord (mirror s s.rest) (mirror t t.rest) := by
  cases h with
  | empty hsize => exact .empty (blind_uleb.mirror hsize)
  | truncated hsize hnonempty hshort => exact .truncated (blind_uleb.mirror hsize) hnonempty hshort
  | unknownFlags hsize hnonempty henough hbits hflags =>
    exact .unknownFlags (blind_uleb.mirror hsize) hnonempty henough (blind_byte.mirror hbits) hflags

theorem mirrors_records {fuel : Nat} (h : readRecords numbering stripped fuel s = .ok true u)
    (hend : u.rest = []) :
    ∃ swapped m, swapRecords numbering stripped fuel s = .ok swapped m ∧
      swapped.length = s.rest.length ∧
      readRecords numbering stripped fuel (mirror s swapped) = .ok true (mirror u []) := by
  induction fuel generalizing s with
  | zero =>
    cases h
    exact ⟨[], u, rfl, by simp [hend], rfl⟩
  | succ fuel ih =>
    rcases readRecords_succ h with ⟨hnil, rfl⟩ | ⟨q, m, hfound, h⟩ | ⟨hnone, -⟩
    · refine ⟨[], u, ?_, by simp [hnil], readRecords_atEnd rfl⟩
      rw [swapRecords, run_get]
      cases hfound : readRecord numbering stripped u with
      | ok found m => exact absurd hnil (readRecord_ne_nil hfound)
      | error e m => exact congrArg (EStateM.Result.ok · u) hnil
    · obtain ⟨used, swapped, hw, hused, hlength, hrecord⟩ := mirrors_record hfound
      obtain ⟨others, m', hothers, hlength', hrecords⟩ := ih h
      -- the record is mirrored in front of the records behind it, which are as long as before
      refine ⟨swapped ++ others, m', ?_, ?_, ?_⟩
      · rw [swapRecords, run_get, hfound]
        dsimp only
        rw [run_bind hw]
        refine (run_bind rfl).trans ?_
        rw [run_bind hothers]
        rfl
      · rw [hused, List.length_append, List.length_append, hlength, hlength']
        rfl
      · rw [readRecords_some (hrecord others hlength')]
        exact hrecords
    · have hmirror : readRecord numbering stripped (mirror s s.rest) = .ok none (mirror u u.rest) :=
        readRecord_none_iff.mpr (readRecord_none_iff.mp hnone).mirror
      refine ⟨s.rest, s, ?_, rfl, ?_⟩
      · rw [swapRecords, run_get, hnone]
        rfl
      · rw [hend] at hmirror
        exact readRecords_none hmirror rfl

/-! ## The header -/

/-- A header with the flag for the byte order turned over. -/
def turned (header : Header) : Header :=
  { header with flags := { header.flags with bigEndian := !header.flags.bigEndian } }

theorem xor_one_eq (n : Nat) : n ^^^ 1 = n / 2 * 2 + (n + 1) % 2 := by
  have hhigh : (n ^^^ 1) / 2 = n / 2 := by simp [Nat.xor_div_two]
  have hlow : (n ^^^ 1) % 2 = (n + 1) % 2 := Nat.xor_mod_two_eq
  omega

theorem uleb128_xor_one {b : UInt8} {r : Bytes} (h : uleb128 (b :: r) = some (n, rest)) :
    uleb128 ((b ^^^ 1) :: r) = some (n ^^^ 1, rest) := by
  have htoNat : (b ^^^ 1).toNat = b.toNat / 2 * 2 + (b.toNat + 1) % 2 := by
    exact xor_one_eq _
  have hlast : b ^^^ 1 < 0x80 ↔ b < 0x80 := by
    rw [UInt8.lt_iff_toNat_lt, UInt8.lt_iff_toNat_lt, htoNat, show (0x80 : UInt8).toNat = 128 from rfl]
    omega
  unfold uleb128 at h ⊢
  rw [xor_one_eq, htoNat]
  split at h
  · rename_i hsmall
    rw [if_pos (hlast.mpr hsmall)]
    cases h
    rfl
  · rename_i hlarge
    rw [if_neg (hlast.not.mpr hlarge)]
    obtain ⟨⟨v, r'⟩, hv, h⟩ := Option.map_eq_some_iff.mp h
    cases h
    rw [hv]
    refine congrArg some (Prod.ext ?_ rfl)
    dsimp only
    omega

theorem headerFlags_xor_one (bits : Nat) :
    headerFlags (bits ^^^ 1) = { headerFlags bits with bigEndian := !(headerFlags bits).bigEndian } := by
  rw [xor_one_eq]
  unfold headerFlags
  rw [show (bits / 2 * 2 + (bits + 1) % 2) / 2 = bits / 2 by omega,
    show (bits / 2 * 2 + (bits + 1) % 2) / 4 = bits / 4 by omega]
  rcases Nat.mod_two_eq_zero_or_one bits with hbit | hbit
  · simp [hbit, Nat.add_mod]
  · simp [hbit, Nat.add_mod]

theorem local_name (origin : String) (stripped : Bool) : Local (readName origin stripped) := by
  unfold readName
  split
  · exact local_pure origin
  · exact local_uleb.bind local_text

theorem readHeader_flipOrderFlag {origin : String} {header : Header}
    (h : readHeader origin s = .ok (some header) t) :
    ∃ head, s.rest = head ++ t.rest ∧ ∀ s' rest, s'.rest = flipOrderFlag head ++ rest →
      readHeader origin s' = .ok (some (turned header)) { s' with rest := rest } := by
  obtain ⟨bits, start, flagged, named, hrun⟩ := readHeader_iff.mp h
  obtain ⟨-, hmagic, -⟩ := bytes_ok_iff.mp hrun.readMagic
  obtain ⟨version, hversion, hflagged, -⟩ := byte_ok_iff.mp hrun.readVersion
  obtain ⟨digits, hdigits, hnamed, -⟩ := uleb_ok_iff.mp hrun.readFlags
  obtain ⟨name, ht, hname⟩ := (bytewise_name origin _).again (local_name _ _) hrun.readName
  -- the flags take a byte at least, and the lowest bit of the first one is the byte order
  cases digits with
  | nil => cases hdigits
  | cons b digits =>
    refine ⟨Header.magic ++ version :: b :: digits ++ name, ?_, fun s' rest hs' => ?_⟩
    · rw [hmagic, hflagged, hnamed, ht]
      simp
    · have hrest : s'.rest = Header.magic ++ version :: (b ^^^ 1) :: (digits ++ (name ++ rest)) := by
        rw [hs', flipOrderFlag, Header.magic]
        simp
      refine readHeader_iff.mpr ⟨bits ^^^ 1,
        { s' with rest := version :: (b ^^^ 1) :: (digits ++ (name ++ rest)) },
        { s' with rest := (b ^^^ 1) :: (digits ++ (name ++ rest)) }, { s' with rest := name ++ rest },
        ?_, ?_, hrun.knownVersion, ?_, ?_, ?_, hrun.sameOrigin, hname _ rest rfl⟩
      · exact bytes_ok_iff.mpr ⟨rfl, hrest, rfl⟩
      · exact byte_ok_iff.mpr ⟨version, hversion, rfl, rfl⟩
      · exact uleb_ok_iff.mpr ⟨_, uleb128_xor_one hdigits, rfl, rfl⟩
      · have hknown := hrun.knownFlags
        rw [xor_one_eq]
        omega
      · rw [headerFlags_xor_one, turned, hrun.flags]

/-! ## Whole dumps -/

section
variable {origin : String} {bytes : Bytes} {header : Header}

theorem swapOrder_eq {head swapped : Bytes} {m : Source}
    (hheader : readHeader origin (.ofBytes bytes) = .ok (some header) s) (hhead : bytes = head ++ s.rest)
    (hrecords : swapRecords numbering header.flags.stripped s.rest.length (behindHeader header s) =
      .ok swapped m) :
    swapOrder numbering bytes = flipOrderFlag head ++ swapped := by
  have hheader : readHeader "" (.ofBytes bytes) = .ok (some (relabeled "" header)) s := by
    rw [readHeader_relabeled origin "", run_bind hheader]
    rfl
  have hparts : swapParts numbering (.ofBytes bytes) = .ok (flipOrderFlag head ++ swapped) m := by
    rw [swapParts, run_bind (run_withBytes hheader hhead)]
    exact (run_bind hrecords).trans rfl
  rw [swapOrder, hparts]

/-- Behind the header, the reader of the turned dump is the mirrored one. -/
theorem behindHeader_turned {bytes' : Bytes}
    (hheader : readHeader origin (.ofBytes bytes) = .ok (some header) s)
    (hlength : bytes'.length = bytes.length) :
    behindHeader (turned header) { Source.ofBytes bytes' with rest := rest } =
      mirror (behindHeader header s) rest := by
  obtain ⟨hsize, -, hpending, hlog⟩ := passes_header hheader
  have hsize : s.size = bytes'.length := hsize.trans hlength.symm
  have hpending : [] = s.pending := hpending
  simp only [behindHeader, mirror, hsize, hlog, ← hpending]
  obtain ⟨version, ⟨bigEndian, stripped, ffi⟩, file, name⟩ := header
  cases bigEndian <;> rfl

/-- An accepted dump in the other byte order is accepted too, with the same tree, the same messages
and a header that differs in the flag for the byte order only. -/
theorem read_swapOrder {log : List String}
    (h : Dump.read numbering origin bytes = ⟨.ok (some (header, p)), log⟩) :
    Dump.read numbering origin (swapOrder numbering bytes) =
      ⟨.ok (some ({ header with
        flags := { header.flags with bigEndian := !header.flags.bigEndian } }, p)), log⟩ := by
  obtain ⟨s, t, hheader, hrecords, hend, hpending, hlog⟩ := read_eq_iff.mp h
  obtain ⟨head, hhead, hturned⟩ := readHeader_flipOrderFlag hheader
  obtain ⟨swapped, m, hswapped, hlength, hmirrored⟩ := mirrors_records hrecords hend
  have hlength : swapped.length = s.rest.length := hlength
  have hbytes : bytes = head ++ s.rest := hhead
  rw [swapOrder_eq hheader hbytes hswapped]
  refine read_eq_iff.mpr ⟨_, mirror t [], hturned _ swapped rfl, ?_, rfl, hpending, hlog⟩
  have hsame : (flipOrderFlag head ++ swapped).length = bytes.length := by
    rw [hbytes, flipOrderFlag, List.length_append, List.length_append, List.length_modify, hlength]
  change readRecords numbering header.flags.stripped swapped.length
    (behindHeader (turned header) _) = _
  rw [behindHeader_turned hheader hsame, hlength]
  exact hmirrored

end

/-- A dump whose function has an upvalue and spans so many lines that a line entry takes two
bytes. -/
def wideDump : Bytes :=
  [0x1b, 0x4c, 0x4a, 0x02, 0x00, 0x01, 0x61] ++
    [0x16, 0x00, 0x00, 0x02, 0x01, 0x00, 0x00, 0x01, 0x05, 0x07, 0xac, 0x02] ++
    [0x4b, 0x00, 0x01, 0x00] ++ [0x02, 0x80] ++ [0x2c, 0x01] ++ [0x75, 0x00, 0x00]

/-- The function of that dump. -/
def wideFunction : Prototype where
  flags := {}
  argumentCount := 0
  framesize := 2
  firstLine := 7
  lineCount := 300
  instructions := [.functionHeader false 2, ⟨.ret0, Opcode.ret0.number, some 0, none, some 1⟩]
  upvalues := [0x8002]
  complex := []
  numbers := []
  debug := ⟨[0, 307], ["u"], []⟩

/-- The dump in big-endian order: the flag, the instruction, the upvalue and the line entry change. -/
theorem read_swapOrder_wide :
    Dump.read .current "x" wideDump = ⟨.ok (some (⟨2, {}, "x", "a"⟩, wideFunction)), []⟩ ∧
    swapOrder .current wideDump =
      [0x1b, 0x4c, 0x4a, 0x02, 0x01, 0x01, 0x61] ++
        [0x16, 0x00, 0x00, 0x02, 0x01, 0x00, 0x00, 0x01, 0x05, 0x07, 0xac, 0x02] ++
        [0x00, 0x01, 0x00, 0x4b] ++ [0x80, 0x02] ++ [0x01, 0x2c] ++ [0x75, 0x00, 0x00] ∧
    Dump.read .current "x" (swapOrder .current wideDump) =
      ⟨.ok (some (⟨2, { bigEndian := true }, "x", "a"⟩, wideFunction)), []⟩ := by
  have h : Dump.read .current "x" wideDump = ⟨.ok (some (⟨2, {}, "x", "a"⟩, wideFunction)), []⟩ := by
    rfl
  exact ⟨h, rfl, read_swapOrder h⟩

end LuaLift.Proofs
