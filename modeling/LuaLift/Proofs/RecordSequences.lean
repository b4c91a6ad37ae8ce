import LuaLift.Proofs.Accepting

/-! # The records of a dump

`WholeRecord` says what it is for a record to be read in full, and `RecordsRead` what it is for
the bytes behind the header to be such records. An accepted dump is its header and records of
this kind, and it ends with the last of them or with a record of size zero, or else with a
record that was given up. The latter happens when the dump ends right behind what is wrong
with that record: its size is the last thing in the dump, or the one byte behind the size has
flags without a meaning. There is a message about it, but the dump is accepted. -/
namespace LuaLift.Proofs
open Bytecode Dump

variable {numbering : Numbering} {stripped : Bool} {origin : String} {bytes : Bytes} {header : Header}
  {p : Prototype} {s t u : Source}

/-! ## A record that is read in full -/

/-- A record of a dump: where it starts, its bytes and the function that it holds. -/
structure PlacedRecord where
  start : Nat
  bytes : Bytes
  function : Prototype

/-- A record at the place where `s` stands is read in full and leaves `t`: its size is the number
of bytes behind the size, of which there is at least the one with the flags; the flags are
known, and the function is read from exactly the other bytes. -/
structure WholeRecord (numbering : Numbering) (stripped : Bool) (s : Source) (record : PlacedRecord)
    (t : Source) : Prop where
  start : record.start = s.offset
  rest : s.rest = record.bytes ++ t.rest
  read : ∃ (sizeBytes : Bytes) (bits : UInt8) (body : Bytes) (flags : PrototypeFlags),
    record.bytes = sizeBytes ++ bits :: body ∧ uleb128 sizeBytes = some ((bits :: body).length, []) ∧
      decodeFlags bits.toNat = some flags ∧
      readBody numbering stripped flags { s with rest := body ++ t.rest } = .ok record.function t

theorem isSome_splitExactly {α : Type} {n : Nat} {xs : List α} :
    (splitExactly n xs).isSome ↔ n ≤ xs.length := by
  induction n generalizing xs with
  | zero => simp [splitExactly]
  | succ n ih =>
    cases xs with
    | nil => simp [splitExactly]
    | cons x xs => simp [splitExactly, ih]

theorem readRecord_some_iff (hs : s.rest.length ≤ s.size) :
    readRecord numbering stripped s = .ok (some p) t ↔
      ∃ bytes, WholeRecord numbering stripped s ⟨s.offset, bytes, p⟩ t := by
  rw [readRecord_iff]
  constructor
  · intro h
    obtain ⟨size, n, flags, start, inner, hrun⟩ := h
    obtain ⟨sizeBytes, hsize, hrest, hstart⟩ := uleb_ok_iff.mp hrun.readSize
    obtain ⟨bits, rfl, hbits, hinner⟩ := byte_ok_iff.mp hrun.readBits
    obtain ⟨body, hbody⟩ := (local_body numbering stripped flags).consumes hrun.readBody
    have hsource : inner = { s with rest := body ++ t.rest } := by
      rw [← hbody.rest, hinner, hstart]
    -- the bytes behind the size are as many as it says
    have hlength : (bits :: body).length = size := by
      have hconsumed := hrun.consumed
      have htsize : t.size = s.size := hbody.size.trans (by rw [hsource])
      have hstartsize := (bytewise_uleb.passes hrun.readSize).size
      rw [hrest, hbits, hbody.rest] at hs
      simp only [List.length_append, List.length_cons] at hs
      simp only [Source.offset, htsize, hstartsize, hbits, hbody.rest, List.length_cons,
        List.length_append] at hconsumed
      rw [List.length_cons]
      omega
    refine ⟨sizeBytes ++ bits :: body, rfl, ?_, sizeBytes, bits, body, flags, rfl, ?_,
      hrun.knownFlags, ?_⟩
    · rw [hrest, hbits, hbody.rest]
      simp
    · rw [hlength, hsize]
    · rw [← hsource]
      exact hrun.readBody
  · intro h
    obtain ⟨record, hrecord⟩ := h
    obtain ⟨sizeBytes, bits, body, flags, hbytes, hsize, hflags, hbody⟩ := hrecord.read
    have hrest := hrecord.rest
    rw [hbytes, List.append_assoc] at hrest
    obtain ⟨notes, hpasses, -⟩ := passes_body hbody
    have htsize : t.size = s.size := hpasses.size
    refine ⟨(bits :: body).length, bits.toNat, flags, { s with rest := bits :: body ++ t.rest }, _,
      uleb_ok_iff.mpr ⟨sizeBytes, hsize, hrest, rfl⟩, by simp, ?_, byte_ok_iff.mpr ⟨bits, rfl, rfl, rfl⟩,
      hflags, hbody, ?_⟩
    · exact isSome_splitExactly.mpr (by simp)
    · rw [hrest] at hs
      simp only [List.length_append, List.length_cons] at hs
      simp only [Source.offset, htsize, List.length_append, List.length_cons]
      omega

theorem WholeRecord.passes {record : PlacedRecord} (h : WholeRecord numbering stripped s record t) :
    ∃ notes, Passes s t (record.function.complex.flatMap childOf) notes ∧
      ∀ line ∈ notes, IsWarning line := by
  obtain ⟨sizeBytes, bits, body, flags, -, -, -, hbody⟩ := h.read
  obtain ⟨notes, hpasses, hwarnings⟩ := passes_body hbody
  exact ⟨notes, ⟨hpasses.size, hpasses.order, hpasses.pending, hpasses.log⟩, hwarnings⟩

theorem WholeRecord.length_pos {record : PlacedRecord} (h : WholeRecord numbering stripped s record t) :
    0 < record.bytes.length := by
  obtain ⟨sizeBytes, bits, body, flags, hbytes, -⟩ := h.read
  rw [hbytes, List.length_append, List.length_cons]
  omega

/-! ## Records one after the other -/

/-- Records that are read in full one after the other. -/
inductive RecordsRead (numbering : Numbering) (stripped : Bool) :
    Source → List PlacedRecord → Source → Prop
  | none {s : Source} : RecordsRead numbering stripped s [] s
  | record {s t u : Source} {record : PlacedRecord} {records : List PlacedRecord}
      (first : WholeRecord numbering stripped s record t)
      (others : RecordsRead numbering stripped (withFunction record.function t) records u) :
      RecordsRead numbering stripped s (record :: records) u

variable {records : List PlacedRecord}

theorem RecordsRead.log (h : RecordsRead numbering stripped s records t) :
    ∃ notes, t.log = s.log ++ notes ∧ ∀ line ∈ notes, IsWarning line := by
  induction h with
  | none => exact ⟨[], by simp, by simp⟩
  | record first _ ih =>
    obtain ⟨notes, hfirst, hnotes⟩ := first.passes
    obtain ⟨notes', hothers, hnotes'⟩ := ih
    refine ⟨notes ++ notes', ?_, ?_⟩
    · rw [hothers, ← List.append_assoc, ← hfirst.log]
      rfl
    · intro line hline
      exact (List.mem_append.mp hline).elim (hnotes line) (hnotes' line)

theorem RecordsRead.readRecords (h : RecordsRead numbering stripped s records t)
    (hs : s.rest.length ≤ s.size) (fuel : Nat) :
    readRecords numbering stripped (fuel + records.length) s = readRecords numbering stripped fuel t := by
  induction h with
  | none => rfl
  | @record s t u record records first others ih =>
    have hread : readRecord numbering stripped s = .ok (some record.function) t := by
      refine (readRecord_some_iff hs).mpr ⟨record.bytes, ?_⟩
      rw [← first.start]
      exact first
    obtain ⟨notes, hpasses, -⟩ := first.passes
    have ht : t.rest.length ≤ t.size := by
      rw [hpasses.size]
      rw [first.rest, List.length_append] at hs
      omega
    rw [List.length_cons, ← Nat.add_assoc, readRecords_some hread]
    exact ih ht

/-- The loop over records stops at `t` and is content with what is left: nothing, or what is not
read as a function and ends the dump. -/
inductive Finishes : Source → Source → Prop
  | atEnd {s : Source} (nothing : s.rest = []) : Finishes s s
  | noRecord {s t : Source} (noFunction : NoRecord s t) (nothing : t.rest = []) : Finishes s t

/-- The loop over records reads records in full until it stops. -/
theorem readRecords_spec {fuel : Nat} (h : readRecords numbering stripped fuel s = .ok true u)
    (hfuel : s.rest.length ≤ fuel) (hs : s.rest.length ≤ s.size) :
    ∃ records t, RecordsRead numbering stripped s records t ∧ Finishes t u := by
  induction fuel generalizing s with
  | zero =>
    obtain rfl : s = u := by
      cases h
      rfl
    exact ⟨[], s, .none, .atEnd (List.eq_nil_of_length_eq_zero (by omega))⟩
  | succ fuel ih =>
    rcases readRecords_succ h with ⟨hnil, rfl⟩ | ⟨p, m, hfound, h⟩ | ⟨hnone, hnil⟩
    · exact ⟨[], u, .none, .atEnd hnil⟩
    -- a record takes a byte at least, so the fuel goes on to suffice
    · obtain ⟨bytes, hwhole⟩ := (readRecord_some_iff hs).mp hfound
      obtain ⟨notes, hpasses, -⟩ := hwhole.passes
      have hlength := congrArg List.length hwhole.rest
      have hpos := hwhole.length_pos
      simp only [List.length_append] at hlength hpos
      obtain ⟨records, t, hrecords, hfinishes⟩ := ih h
        (show m.rest.length ≤ fuel by omega)
        (show m.rest.length ≤ m.size by rw [hpasses.size]; omega)
      exact ⟨_ :: records, t, .record hwhole hrecords, hfinishes⟩
    · exact ⟨[], s, .none, .noRecord (readRecord_none_iff.mp hnone) hnil⟩

theorem RecordsRead.length_le (h : RecordsRead numbering stripped s records t) :
    records.length + t.rest.length ≤ s.rest.length := by
  induction h with
  | none => simp
  | @record s t u record records first _ ih =>
    have hpos := first.length_pos
    have hothers : records.length + u.rest.length ≤ t.rest.length := ih
    rw [first.rest, List.length_append, List.length_cons]
    omega

/-! ## How a dump ends -/

/-- A record that is given up, with the bytes behind the place where this is noticed: fewer
bytes than its size follow, or its flags have no meaning. -/
inductive GivenUp : Bytes → Bytes → Prop
  | truncated {bytes rest : Bytes} {size : Nat} (size_eq : uleb128 bytes = some (size, rest))
      (short : rest.length < size) : GivenUp bytes rest
  | unknownFlags {bytes rest : Bytes} {size : Nat} {bits : UInt8}
      (size_eq : uleb128 bytes = some (size, bits :: rest)) (nonempty : size ≠ 0)
      (unknown : decodeFlags bits.toNat = none) : GivenUp bytes rest

/-- A message that a record is given up. -/
def givesUp (line : String) : Bool :=
  line == "File truncated" || "Unknown prototype flags: ".toList.isPrefixOf line.toList

theorem givesUp_unknownFlags (digits : String) : givesUp ("Unknown prototype flags: " ++ digits) := by
  rw [givesUp, Bool.or_eq_true, List.isPrefixOf_iff_prefix, String.toList_append]
  exact .inr (List.prefix_append _ _)

theorem IsWarning.not_givesUp {line : String} (h : IsWarning line) : givesUp line = false := by
  obtain ⟨digits, rfl⟩ := h
  have hlist : ("Warning: unknown opcode " ++ digits).toList =
      'W' :: ("arning: unknown opcode " ++ digits).toList := by simp [String.toList_append]
  have htruncated : "Warning: unknown opcode " ++ digits ≠ "File truncated" := by
    intro h
    rw [h] at hlist
    simp at hlist
  simp [givesUp, htruncated, hlist, List.isPrefixOf]

/-- A record without a function is one of size zero, or it is given up with a message. -/
theorem NoRecord.cases (h : NoRecord s t) : uleb128 s.rest = some (0, t.rest) ∨
    GivenUp s.rest t.rest ∧ ∃ line, givesUp line ∧ line ∈ t.log := by
  cases h with
  | empty hsize =>
    obtain ⟨rest, hdecode, rfl⟩ := decoded_iff.mp hsize
    exact .inl hdecode
  | truncated hsize _ hshort =>
    obtain ⟨rest, hdecode, rfl⟩ := decoded_iff.mp hsize
    refine .inr ⟨.truncated hdecode ?_, _, rfl, List.mem_append_right _ List.mem_cons_self⟩
    rw [← Nat.not_le, ← isSome_splitExactly, hshort]
    simp
  | unknownFlags hsize hnonempty _ hbits hflags =>
    obtain ⟨rest, hdecode, rfl⟩ := decoded_iff.mp hsize
    obtain ⟨bits, rfl, hrest, -⟩ := byte_ok_iff.mp hbits
    obtain rfl : rest = bits :: _ := hrest
    exact .inr ⟨.unknownFlags hdecode hnonempty hflags, _, givesUp_unknownFlags _,
      List.mem_append_right _ List.mem_cons_self⟩

theorem Finishes.rest (h : Finishes s t) : s.rest = [] ∨ uleb128 s.rest = some (0, []) ∨
    GivenUp s.rest [] ∧ ∃ line, givesUp line ∧ line ∈ t.log := by
  cases h with
  | atEnd hnil => exact .inl hnil
  | noRecord hnone hnil =>
    have hcases := hnone.cases
    rw [hnil] at hcases
    exact .inr hcases

/-! ## Accepted dumps -/

theorem length_le_behindHeader (h : readHeader origin (.ofBytes bytes) = .ok (some header) s) :
    (behindHeader header s).rest.length ≤ (behindHeader header s).size := by
  obtain ⟨used, hused⟩ := (local_header origin).consumes h
  have hlength : bytes.length = (used ++ s.rest).length := congrArg List.length hused.rest
  have hsize : s.size = bytes.length := hused.size
  change s.rest.length ≤ s.size
  rw [hsize, hlength, List.length_append]
  omega

/-- An accepted dump is a header and records that are read in full, up to where the loop over
records stops. -/
theorem accepted_records {log : List String}
    (h : Dump.read numbering origin bytes = ⟨.ok (some (header, p)), log⟩) :
    ∃ s records t u, readHeader origin (.ofBytes bytes) = .ok (some header) s ∧
      RecordsRead numbering header.flags.stripped (behindHeader header s) records t ∧
      Finishes t u ∧ u.pending = [p] ∧ u.log = log := by
  obtain ⟨s, u, hheader, hrecords, -, hpending, hlog⟩ := read_eq_iff.mp h
  obtain ⟨records, t, hread, hfinishes⟩ := readRecords_spec hrecords (Nat.le_refl _)
    (length_le_behindHeader hheader)
  exact ⟨s, records, t, u, hheader, hread, hfinishes, hpending, hlog⟩

/-- A dump that is its header and records that are read in full, with nothing behind them but
perhaps a record of size zero. -/
def ReadInFull (numbering : Numbering) (origin : String) (bytes : Bytes) : Prop :=
  ∃ header s records t, readHeader origin (.ofBytes bytes) = .ok (some header) s ∧
    RecordsRead numbering header.flags.stripped (behindHeader header s) records t ∧
    (t.rest = [] ∨ uleb128 t.rest = some (0, []))

/-- At the end of the dump, or at a record of size zero that ends it, the loop over records stops
without a message. -/
theorem readRecords_ended {fuel : Nat} (h : t.rest = [] ∨ uleb128 t.rest = some (0, []))
    (hfuel : t.rest.length ≤ fuel) :
    ∃ u, readRecords numbering stripped fuel t = .ok true u ∧ u.log = t.log := by
  cases h with
  | inl hnil => exact ⟨t, readRecords_atEnd hnil, rfl⟩
  | inr hzero =>
    have hnone : readRecord numbering stripped t = .ok none { t with rest := [] } :=
      readRecord_none_iff.mpr (.empty (decoded_iff.mpr ⟨[], hzero, rfl⟩))
    have hpos := List.length_pos_iff.mpr (readRecord_ne_nil hnone)
    obtain ⟨fuel, rfl⟩ := Nat.exists_eq_add_of_le' (Nat.le_trans hpos hfuel)
    exact ⟨{ t with rest := [] }, readRecords_none hnone rfl, rfl⟩

theorem ReadInFull.not_givesUp (hfull : ReadInFull numbering origin bytes) {log : List String}
    (h : Dump.read numbering origin bytes = ⟨.ok (some (header, p)), log⟩) :
    ∀ line ∈ log, givesUp line = false := by
  obtain ⟨s, u, hheader, hrecords, -, -, rfl⟩ := read_eq_iff.mp h
  obtain ⟨header', s', records, t, hheader', hread, hend⟩ := hfull
  rw [hheader] at hheader'
  cases hheader'
  have hlength : records.length + t.rest.length ≤ s.rest.length := hread.length_le
  obtain ⟨fuel, hfuel⟩ := Nat.exists_eq_add_of_le' (Nat.le_trans (Nat.le_add_right _ _) hlength)
  rw [hfuel, hread.readRecords (length_le_behindHeader hheader)] at hrecords
  obtain ⟨u', hstop, hlog⟩ : ∃ u', readRecords numbering header.flags.stripped fuel t = .ok true u' ∧
      u'.log = t.log := readRecords_ended hend (by omega)
  rw [hstop] at hrecords
  cases hrecords
  obtain ⟨notes, hnotes, hwarnings⟩ := hread.log
  have hstart : (behindHeader header s).log = [] := (passes_header hheader).log
  rw [hlog, hnotes, hstart, List.nil_append]
  exact fun line hline => (hwarnings line hline).not_givesUp

/-- Behind the header of an accepted dump stand records that are read in full, each with a size that
is not zero, with all its bytes in the dump and with known flags. Nothing follows them, or a record
of size zero, or a record that is given up where the dump ends; the last exactly if there is a
message that a record is given up. -/
theorem accepted_records_until_givenUp
    (h : (Dump.read numbering origin bytes).result = .ok (some (header, p))) :
    (∃ s records t, readHeader origin (.ofBytes bytes) = .ok (some header) s ∧
      RecordsRead numbering header.flags.stripped (behindHeader header s) records t ∧
      (t.rest = [] ∨ uleb128 t.rest = some (0, []) ∨ GivenUp t.rest [])) ∧
    (ReadInFull numbering origin bytes ↔
      ∀ line ∈ (Dump.read numbering origin bytes).log, givesUp line = false) := by
  have hread : Dump.read numbering origin bytes = ⟨.ok (some (header, p)),
      (Dump.read numbering origin bytes).log⟩ :=
    congrArg (Reading.mk · _) h
  obtain ⟨s, records, t, u, hheader, hrecords, hfinishes, -, hulog⟩ := accepted_records hread
  have hend := hfinishes.rest
  constructor
  · exact ⟨s, records, t, hheader, hrecords, hend.imp id (.imp id And.left)⟩
  · constructor
    · intro hfull
      exact hfull.not_givesUp hread
    · intro hlog
      refine ⟨header, s, records, t, hheader, hrecords, ?_⟩
      rcases hend with hnil | hzero | ⟨-, line, hline, hmem⟩
      · exact .inl hnil
      · exact .inr hzero
      · rw [hlog line (hulog ▸ hmem)] at hline
        cases hline

/-- A stripped dump of a function with a child, whose instruction is unknown. -/
def nestedDump : Bytes :=
  [0x1b, 0x4c, 0x4a, 0x02, 0x02] ++
    [0x0b, 0x00, 0x00, 0x02, 0x00, 0x00, 0x00, 0x01, 0xff, 0x00, 0x01, 0x00] ++
    [0x10, 0x01, 0x00, 0x02, 0x00, 0x01, 0x00, 0x02, 0x33, 0x00, 0x00, 0x00, 0x4c, 0x00, 0x02, 0x00, 0x00]

def nestedHeader : Header := ⟨2, { stripped := true }, "nested", "nested"⟩

/-- The function of that dump. -/
def nestedFunction : Prototype where
  flags := { hasChildren := true }
  argumentCount := 0
  framesize := 2
  firstLine := 0
  lineCount := 0
  instructions := [.functionHeader false 2,
    ⟨.fnew, Opcode.fnew.number, some 0, none, some 0⟩, ⟨.ret1, Opcode.ret1.number, some 0, none, some 2⟩]
  upvalues := []
  complex :=
    [.child ⟨{}, 0, 2, 0, 0, [.functionHeader false 2, ⟨.unknw, 0xff, some 0, some 0, some 1⟩], [],
      [], [], {}⟩]
  numbers := []
  debug := {}

theorem readInFull_nested :
    (Dump.read .current "nested" (nestedDump ++ [0])).result = .ok (some (nestedHeader, nestedFunction)) ∧
    ReadInFull .current "nested" (nestedDump ++ [0]) ∧
    (Dump.read .current "nested" (nestedDump ++ [0])).log = ["Warning: unknown opcode 000000ff"] := by
  have h : (Dump.read .current "nested" (nestedDump ++ [0])).result =
      .ok (some (nestedHeader, nestedFunction)) := rfl
  have hlog : (Dump.read .current "nested" (nestedDump ++ [0])).log =
      ["Warning: unknown opcode 000000ff"] := by decide
  refine ⟨h, (accepted_records_until_givenUp h).2.mpr ?_, hlog⟩
  rw [hlog]
  decide

/-- The dump is accepted although a size without a record follows, or a record whose flags have
no meaning. -/
theorem accepted_with_record_givenUp :
    ((Dump.read .current "nested" (nestedDump ++ [5])).result = .ok (some (nestedHeader, nestedFunction)) ∧
      ¬ ReadInFull .current "nested" (nestedDump ++ [5])) ∧
    ((Dump.read .current "nested" (nestedDump ++ [1, 0x20])).result =
        .ok (some (nestedHeader, nestedFunction)) ∧
      ¬ ReadInFull .current "nested" (nestedDump ++ [1, 0x20])) := by
  refine ⟨⟨rfl, ?_⟩, ⟨rfl, ?_⟩⟩
  · intro hfull
    have hlog := hfull.not_givesUp rfl
    exact absurd (hlog "File truncated" (by decide)) (by decide)
  · intro hfull
    have hlog := hfull.not_givesUp rfl
    exact absurd (hlog "Unknown prototype flags: 00100000" (by decide)) (by decide)

end LuaLift.Proofs
