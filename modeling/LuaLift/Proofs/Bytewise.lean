import LuaLift.Proofs.Locality

/-! # Readers that look at the bytes only

Most readers neither ask for the byte order of the dump nor touch the functions that wait or
the messages. `Bytewise r` says that what `r` does is a matter of the unread bytes alone. The
exceptions are numbers of a fixed width, which depend on the byte order, child constants,
which take a waiting function, and unknown opcodes, which leave a message. -/
namespace LuaLift.Proofs
open Bytecode Dump

variable {α β : Type}

/-- An outcome as it is for a reader that starts in `s` and changes nothing but the unread
bytes. -/
def attach (s : Source) : EStateM.Result Fault Source α → EStateM.Result Fault Source α
  | .ok a t => .ok a { s with rest := t.rest }
  | .error e t => .error e { s with rest := t.rest }

/-- What a reader does depends on the unread bytes and changes nothing else. -/
def Bytewise (r : Read α) : Prop := ∀ ⦃s s' : Source⦄, s'.rest = s.rest → r s' = attach s' (r s)

section
variable {r : Read α} {f : α → Read β} {s s' t : Source} {a : α}

theorem Bytewise.ok (h : Bytewise r) (hr : r s = .ok a t) (hrest : s'.rest = s.rest) :
    r s' = .ok a { s' with rest := t.rest } := by
  rw [h hrest, hr]
  rfl

theorem Bytewise.state (h : Bytewise r) (hr : r s = .ok a t) : t = { s with rest := t.rest } := by
  have hsame := h.ok hr rfl
  rw [hr] at hsame
  exact (EStateM.Result.ok.inj hsame).2

theorem Bytewise.bind (h : Bytewise r) (h' : ∀ a, Bytewise (f a)) : Bytewise (r >>= f) := by
  intro s s' hrest
  change EStateM.bind r f s' = attach s' (EStateM.bind r f s)
  unfold EStateM.bind
  rw [h hrest]
  cases r s with
  | ok a t =>
    change f a { s' with rest := t.rest } = attach s' (f a t)
    rw [h' a (show { s' with rest := t.rest }.rest = t.rest from rfl)]
    cases f a t <;> rfl
  | error e t => rfl

theorem bytewise_pure (a : α) : Bytewise (pure a) := by
  intro s s' hrest
  change EStateM.Result.ok a s' = .ok a { s' with rest := s.rest }
  rw [← hrest]

theorem bytewise_throw (e : Fault) : Bytewise (throw e : Read α) := by
  intro s s' hrest
  change EStateM.Result.error e s' = .error e { s' with rest := s.rest }
  rw [← hrest]

theorem Bytewise.map (h : Bytewise r) (g : α → β) : Bytewise (do return g (← r)) :=
  h.bind fun a => bytewise_pure (g a)

theorem Bytewise.times (h : Bytewise r) (n : Nat) : Bytewise (Read.times n r) := by
  induction n with
  | zero => exact bytewise_pure []
  | succ n ih => exact h.bind fun x => ih.map (x :: ·)

end

/-! ## Bytes, numbers and texts -/

theorem bytewise_byte : Bytewise Read.byte := by
  intro s s' hrest
  rw [byte_apply, byte_apply, hrest]
  cases s.rest with
  | nil => exact bytewise_throw _ hrest
  | cons b rest => rfl

theorem bytewise_bytes (n : Nat) : Bytewise (Read.bytes n) := by
  intro s s' hrest
  rw [bytes_apply, bytes_apply, hrest]
  cases splitExactly n s.rest with
  | none => exact bytewise_throw _ hrest
  | some parts => rfl

theorem bytewise_decoded (decode : Bytes → Option (α × Bytes)) : Bytewise (Read.decoded decode) := by
  intro s s' hrest
  change (match decode s'.rest with | some (v, r) => _ | none => _ : Read _) s' =
    attach s' ((match decode s.rest with | some (v, r) => _ | none => _ : Read _) s)
  rw [hrest]
  cases decode s.rest <;> rfl

theorem bytewise_zeroTerminated : Bytewise Read.zeroTerminated := by
  intro s s' hrest
  change EStateM.Result.ok (s'.rest.span (· != 0)).1 { s' with rest := (s'.rest.span (· != 0)).2.drop 1 } =
    .ok (s.rest.span (· != 0)).1 { s' with rest := (s.rest.span (· != 0)).2.drop 1 }
  rw [hrest]

theorem bytewise_uleb : Bytewise Read.uleb := bytewise_decoded uleb128

theorem bytewise_text (n : Nat) : Bytewise (Read.text n) := by
  refine (bytewise_bytes n).bind fun bs => ?_
  split
  · exact bytewise_pure _
  · exact bytewise_throw _

theorem bytewise_asciiText (bs : Bytes) : Bytewise (Read.asciiText bs) := by
  unfold Read.asciiText
  split
  · exact bytewise_pure _
  · exact bytewise_throw _

/-! ## Constants -/

theorem bytewise_double : Bytewise readDouble := by
  refine bytewise_uleb.bind fun low => bytewise_uleb.bind fun high => ?_
  split
  · exact bytewise_pure _
  · exact bytewise_throw _

theorem bytewise_tableItem : Bytewise readTableItem := by
  refine bytewise_uleb.bind fun tag => ?_
  split
  · exact bytewise_pure _
  · exact bytewise_pure _
  · exact bytewise_pure _
  · exact bytewise_uleb.map _
  · exact bytewise_double.map _
  · exact (bytewise_text _).map _

theorem bytewise_table : Bytewise readTable := by
  refine bytewise_uleb.bind fun arraySize => bytewise_uleb.bind fun entryCount => ?_
  refine (bytewise_tableItem.times arraySize).bind fun array => ?_
  have hentry : Bytewise (do
      let key ← readTableItem
      let value ← readTableItem
      return (key, value)) := bytewise_tableItem.bind fun key => bytewise_tableItem.map (key, ·)
  exact (hentry.times entryCount).map (TableConstant.mk array)

theorem bytewise_number : Bytewise readNumber := by
  refine (bytewise_decoded uleb128WithBit).bind fun head => ?_
  dsimp only
  split
  · refine bytewise_uleb.bind fun high => ?_
    split
    · exact bytewise_pure _
    · exact bytewise_throw _
  · exact bytewise_pure _

/-! ## Names -/

theorem bytewise_variable (lastStart tag : Nat) : Bytewise (readVariable lastStart tag) := by
  have hname : Bytewise (readVariableName tag) := by
    unfold readVariableName
    split
    · exact bytewise_pure _
    · exact bytewise_zeroTerminated.bind fun bs => (bytewise_asciiText _).map _
  exact hname.bind fun _ => bytewise_uleb.bind fun _ => bytewise_uleb.map _

theorem bytewise_variables (fuel lastStart : Nat) : Bytewise (readVariables fuel lastStart) := by
  induction fuel generalizing lastStart with
  | zero => exact bytewise_throw _
  | succ fuel ih =>
    rw [readVariables_succ]
    refine bytewise_byte.bind fun tag => ?_
    split
    · exact bytewise_pure _
    · exact (bytewise_variable lastStart tag).bind fun v => (ih v.start).map (v :: ·)

/-- Reads the names of upvalues and the variables of a function. -/
def readNames (upvalueCount : Nat) : Read (List String × List Variable) := do
  let upvalues ← Read.times upvalueCount do Read.asciiText (← Read.zeroTerminated)
  let locals ← readVariables ((← get).rest.length + 1) 0
  return (upvalues, locals)

theorem readDebug_eq (firstLine lineCount instructionCount upvalueCount : Nat) :
    readDebug firstLine lineCount instructionCount upvalueCount = (do
      let lines ← readLines firstLine lineCount instructionCount
      let names ← readNames upvalueCount
      return ⟨lines, names.1, names.2⟩) := by
  unfold readDebug readNames
  simp only [bind_assoc, pure_bind]

theorem bytewise_names (upvalueCount : Nat) : Bytewise (readNames upvalueCount) := by
  have hname : Bytewise (do Read.asciiText (← Read.zeroTerminated)) :=
    bytewise_zeroTerminated.bind bytewise_asciiText
  have hlocals : Bytewise (do readVariables ((← get).rest.length + 1) 0) := by
    intro s s' hrest
    rw [run_get, run_get, hrest]
    exact bytewise_variables _ 0 hrest
  exact (hname.times upvalueCount).bind fun upvalues => hlocals.map (upvalues, ·)

theorem bytewise_counts (stripped : Bool) : Bytewise (readCounts stripped) := by
  have hsize : Bytewise (readDebugSize stripped) := by
    unfold readDebugSize
    split
    · exact bytewise_pure 0
    · exact bytewise_uleb
  have hlines : ∀ debugSize, Bytewise (readLineRange debugSize) := by
    intro debugSize
    unfold readLineRange
    split
    · exact bytewise_pure _
    · exact bytewise_uleb.bind fun firstLine => bytewise_uleb.map (firstLine, ·)
  refine bytewise_byte.bind fun _ => bytewise_byte.bind fun _ => bytewise_byte.bind fun _ => ?_
  refine bytewise_uleb.bind fun _ => bytewise_uleb.bind fun _ => bytewise_uleb.bind fun _ => ?_
  exact hsize.bind fun debugSize => (hlines debugSize).map _

/-! ## What bytes and numbers are read from -/

variable {header : Header} {n v count : Nat} {numbering : Numbering} {p : Prototype} {r : Read α}
  {s t : Source} {origin : String}

theorem byte_ok_iff : Read.byte s = .ok n t ↔
    ∃ b, b.toNat = n ∧ s.rest = b :: t.rest ∧ t = { s with rest := t.rest } := by
  rw [byte_apply]
  cases s.rest with
  | nil =>
    constructor
    · intro h
      cases h
    · intro h
      obtain ⟨b, -, h, -⟩ := h
      cases h
  | cons b rest =>
    constructor
    · intro h
      cases h
      exact ⟨b, rfl, rfl, rfl⟩
    · intro h
      obtain ⟨b', rfl, h, ht⟩ := h
      cases h
      rw [ht]

theorem bytes_ok_iff {bs : Bytes} : Read.bytes n s = .ok bs t ↔
    bs.length = n ∧ s.rest = bs ++ t.rest ∧ t = { s with rest := t.rest } := by
  rw [bytes_apply]
  constructor
  · intro h
    cases hsplit : splitExactly n s.rest with
    | none =>
      rw [hsplit] at h
      cases h
    | some parts =>
      rw [hsplit] at h
      cases h
      obtain ⟨hrest, hlength⟩ := append_of_splitExactly hsplit
      exact ⟨hlength, hrest, rfl⟩
  · intro h
    obtain ⟨rfl, hrest, ht⟩ := h
    rw [hrest, splitExactly_append, ht]

theorem uleb_ok_iff : Read.uleb s = .ok n t ↔
    ∃ used, uleb128 used = some (n, []) ∧ s.rest = used ++ t.rest ∧ t = { s with rest := t.rest } := by
  constructor
  · intro h
    obtain ⟨rest, hdecode, rfl⟩ := decoded_iff.mp h
    obtain ⟨used, -, hrest, hused⟩ := localDecoder_uleb128 hdecode
    exact ⟨used, by simpa using hused [], hrest, rfl⟩
  · intro h
    obtain ⟨used, hdecode, hrest, ht⟩ := h
    obtain ⟨used', -, hsame, hused⟩ := localDecoder_uleb128 hdecode
    rw [List.append_nil] at hsame
    exact decoded_iff.mpr ⟨t.rest, by rw [hrest, hsame, hused], ht⟩

theorem uint_ok_iff : Read.uint n s = .ok v t ↔
    ∃ bs, bs.length = n ∧ s.rest = bs ++ t.rest ∧ s.order.decode bs = v ∧ t = { s with rest := t.rest } := by
  constructor
  · intro h
    obtain ⟨bs, m, hbytes, h⟩ := ok_of_bind h
    obtain ⟨hlength, hrest, hm⟩ := bytes_ok_iff.mp hbytes
    cases h
    exact ⟨bs, hlength, hrest, by rw [hm], hm⟩
  · intro h
    obtain ⟨bs, hlength, hrest, rfl, ht⟩ := h
    rw [Read.uint, run_bind (bytes_ok_iff.mpr ⟨hlength, hrest, ht⟩), ht]
    rfl

theorem takePending_ok_iff : takePending s = .ok p t ↔
    s.pending = p :: t.pending ∧ t = { s with pending := t.pending } := by
  rw [takePending_apply]
  cases s.pending with
  | nil =>
    constructor
    · intro h
      cases h
    · intro h
      cases h.1
  | cons q ps =>
    constructor
    · intro h
      cases h
      exact ⟨rfl, rfl⟩
    · intro h
      obtain ⟨hpending, ht⟩ := h
      cases hpending
      rw [ht]

/-! ## Headers -/

/-- Reads the name of the source file, which a stripped dump does not have. -/
def readName (origin : String) (stripped : Bool) : Read String :=
  if stripped then return origin else do Read.text (← Read.uleb)

theorem bytewise_name (origin : String) (stripped : Bool) : Bytewise (readName origin stripped) := by
  unfold readName
  split
  · exact bytewise_pure origin
  · exact bytewise_uleb.bind bytewise_text

/-- The flags of a header, from their bits. -/
def headerFlags (bits : Nat) : HeaderFlags := ⟨bits % 2 == 1, bits / 2 % 2 == 1, bits / 4 % 2 == 1⟩

/-- The steps in which a header is read. -/
structure HeaderRun (origin : String) (s t : Source) (header : Header) (bits : Nat)
    (start flagged named : Source) : Prop where
  readMagic : Read.bytes 3 s = .ok Header.magic start
  readVersion : Read.byte start = .ok header.version flagged
  knownVersion : header.version ≤ Header.lastVersion
  readFlags : Read.uleb flagged = .ok bits named
  knownFlags : bits / 8 * 8 = 0
  flags : header.flags = headerFlags bits
  sameOrigin : header.origin = origin
  readName : readName origin header.flags.stripped named = .ok header.name t

theorem readHeader_iff :
    readHeader origin s = .ok (some header) t ↔
      ∃ bits start flagged named, HeaderRun origin s t header bits start flagged named := by
  constructor
  · intro h
    obtain ⟨magic, start, hmagic, h⟩ := ok_of_bind h
    split at h
    · cases h
    · rename_i hsame
      obtain ⟨version, flagged, hversion, h⟩ := ok_of_bind h
      split at h
      · cases h
      · rename_i hknown
        obtain ⟨bits, named, hbits, h⟩ := ok_of_bind h
        dsimp only at h
        split at h
        · cases h
        · rename_i hothers
          obtain rfl : magic = Header.magic := by simpa using hsame
          have hname : ∃ name, readName origin (headerFlags bits).stripped named = .ok name t ∧
              header = ⟨version, headerFlags bits, origin, name⟩ := by
            unfold readName headerFlags
            split at h
            · rename_i hstripped
              rw [if_pos hstripped]
              cases h
              exact ⟨origin, rfl, rfl⟩
            · rename_i hstripped
              rw [if_neg hstripped]
              obtain ⟨n, m, hn, h⟩ := ok_of_bind h
              obtain ⟨name, m', htext, h⟩ := ok_of_bind h
              cases h
              exact ⟨name, (run_bind hn).trans htext, rfl⟩
          obtain ⟨name, hname, rfl⟩ := hname
          exact ⟨bits, start, flagged, named, hmagic, hversion, by simpa using hknown, hbits,
            by simpa using hothers, rfl, rfl, hname⟩
  · intro h
    obtain ⟨bits, start, flagged, named, hrun⟩ := h
    obtain ⟨version, flags, _, name⟩ := header
    obtain ⟨hmagic, hversion, hknown, hbits, hothers, rfl, rfl, hname⟩ := hrun
    rw [readHeader, run_bind hmagic, if_neg (by simp), run_bind hversion, if_neg (by simpa using hknown),
      run_bind hbits]
    rw [if_neg (by simpa using hothers)]
    unfold readName headerFlags at hname
    split at hname
    · rename_i hstripped
      rw [if_pos hstripped]
      cases hname
      rfl
    · rename_i hstripped
      rw [if_neg hstripped]
      obtain ⟨n, m, hn, hname⟩ := ok_of_bind hname
      rw [run_bind hn, run_bind hname]
      rfl

/-- A header as it is when the dump is read from another file. -/
def relabeled (origin : String) (header : Header) : Header :=
  { header with origin := origin, name := if header.flags.stripped then origin else header.name }

theorem readHeader_relabeled (origin origin' : String) :
    readHeader origin' = (do return (← readHeader origin).map (relabeled origin')) := by
  unfold readHeader
  simp only [bind_assoc]
  refine bind_congr fun magic => ?_
  split
  · simp
  · simp only [bind_assoc]
    refine bind_congr fun version => ?_
    split
    · simp
    · simp only [bind_assoc]
      refine bind_congr fun bits => ?_
      split
      · simp
      · split
        · rename_i hstripped
          simp [relabeled, hstripped]
        · rename_i hstripped
          simp [relabeled, hstripped]

/-! ## What a record takes and leaves

The remaining readers touch the waiting functions or the messages, and `Passes` says how. -/

/-- Between `s` and `t` the functions `taken` were taken from those that wait and the
messages `notes` were left. -/
structure Passes (s t : Source) (taken : List Prototype) (notes : List String) : Prop where
  size : t.size = s.size
  order : t.order = s.order
  pending : s.pending = taken ++ t.pending
  log : t.log = s.log ++ notes

section
variable {s m t : Source} {taken taken' : List Prototype} {notes notes' : List String}

theorem Passes.trans (h : Passes s m taken notes) (h' : Passes m t taken' notes') :
    Passes s t (taken ++ taken') (notes ++ notes') where
  size := h'.size.trans h.size
  order := h'.order.trans h.order
  pending := by rw [h.pending, h'.pending, List.append_assoc]
  log := by rw [h'.log, h.log, List.append_assoc]

theorem Passes.skip (h : Passes s m taken notes) (h' : Passes m t [] []) :
    Passes s t taken notes := by
  have := h.trans h'
  rwa [List.append_nil, List.append_nil] at this

theorem Bytewise.passes (h : Bytewise r) {a : α} (hr : r s = .ok a t) : Passes s t [] [] := by
  rw [h.state hr]
  exact ⟨rfl, rfl, rfl, by simp⟩

theorem passes_uint (h : Read.uint n s = .ok v t) : Passes s t [] [] := by
  obtain ⟨bs, m, hbytes, h⟩ := ok_of_bind h
  cases h
  exact (bytewise_bytes n).passes hbytes

theorem passes_times (hr : ∀ ⦃s t : Source⦄ ⦃a : α⦄, r s = .ok a t → Passes s t [] []) {xs : List α}
    (h : Read.times n r s = .ok xs t) : Passes s t [] [] := by
  induction n generalizing s xs with
  | zero =>
    cases h
    exact (bytewise_pure ()).passes rfl
  | succ n ih =>
    obtain ⟨x, m, hx, h⟩ := ok_of_bind h
    obtain ⟨xs', m', hxs, h⟩ := ok_of_bind h
    cases h
    exact (hr hx).skip (ih hxs)

theorem passes_header (h : readHeader origin s = .ok (some header) t) : Passes s t [] [] := by
  obtain ⟨bits, start, flagged, named, hrun⟩ := readHeader_iff.mp h
  have hstart := (bytewise_bytes 3).passes hrun.readMagic
  have hflagged := hstart.skip (bytewise_byte.passes hrun.readVersion)
  have hnamed := hflagged.skip (bytewise_uleb.passes hrun.readFlags)
  exact hnamed.skip ((bytewise_name origin _).passes hrun.readName)

/-- The message about an opcode that the numbering does not have. -/
def IsWarning (line : String) : Prop := ∃ digits, line = "Warning: unknown opcode " ++ digits

theorem passes_instruction {i : Instruction} (h : readInstruction numbering count s = .ok i t) :
    ∃ notes, Passes s t [] notes ∧ ∀ line ∈ notes, IsWarning line := by
  obtain ⟨word, m, hword, h⟩ := ok_of_bind h
  have hm := passes_uint hword
  dsimp only at h
  split at h
  · cases h
    refine ⟨_, ⟨hm.size, hm.order, hm.pending, congrArg (· ++ _) (by simpa using hm.log)⟩, ?_⟩
    intro line hline
    exact ⟨_, List.mem_singleton.mp hline⟩
  · cases h
    exact ⟨[], hm, by simp⟩

theorem passes_instructions {is : List Instruction}
    (h : Read.times n (readInstruction numbering count) s = .ok is t) :
    ∃ notes, Passes s t [] notes ∧ ∀ line ∈ notes, IsWarning line := by
  induction n generalizing s is with
  | zero =>
    cases h
    exact ⟨[], (bytewise_pure ()).passes rfl, by simp⟩
  | succ n ih =>
    obtain ⟨i, m, hi, h⟩ := ok_of_bind h
    obtain ⟨is', m', his, h⟩ := ok_of_bind h
    cases h
    obtain ⟨notes, hm, hnotes⟩ := passes_instruction hi
    obtain ⟨notes', ht, hnotes'⟩ := ih his
    refine ⟨notes ++ notes', hm.trans ht, ?_⟩
    intro line hline
    exact (List.mem_append.mp hline).elim (hnotes line) (hnotes' line)

theorem passes_complex {c : Complex Prototype} (h : readComplex s = .ok c t) :
    Passes s t (childOf c) [] := by
  obtain ⟨tag, m, htag, h⟩ := ok_of_bind h
  suffices ht : Passes m t (childOf c) [] from (bytewise_uleb.passes htag).trans ht
  split at h
  · obtain ⟨q, m', htake, h⟩ := ok_of_bind h
    cases h
    obtain ⟨hpending, ht⟩ := takePending_ok_iff.mp htake
    exact ⟨by rw [ht], by rw [ht], hpending, by rw [ht, List.append_nil]⟩
  · obtain ⟨table, m', htable, h⟩ := ok_of_bind h
    cases h
    exact bytewise_table.passes htable
  · obtain ⟨re, m', hre, h⟩ := ok_of_bind h
    obtain ⟨im, m'', him, h⟩ := ok_of_bind h
    cases h
    exact (bytewise_double.passes hre).skip (bytewise_double.passes him)
  · obtain ⟨number, m', hnumber, h⟩ := ok_of_bind h
    cases h
    exact bytewise_double.passes hnumber
  · obtain ⟨number, m', hnumber, h⟩ := ok_of_bind h
    cases h
    exact bytewise_double.passes hnumber
  · obtain ⟨text, m', htext, h⟩ := ok_of_bind h
    cases h
    exact (bytewise_text _).passes htext

theorem passes_constants {cs : List (Complex Prototype)} (h : Read.times n readComplex s = .ok cs t) :
    Passes s t (cs.flatMap childOf) [] := by
  induction n generalizing s cs with
  | zero =>
    cases h
    exact (bytewise_pure ()).passes rfl
  | succ n ih =>
    obtain ⟨c, m, hc, h⟩ := ok_of_bind h
    obtain ⟨cs', m', hcs, h⟩ := ok_of_bind h
    cases h
    exact (passes_complex hc).trans (ih hcs)

theorem passes_debug {c : Counts} {d : DebugInfo} (h : readDebugSection c s = .ok d t) :
    Passes s t [] [] := by
  unfold readDebugSection at h
  split at h
  · cases h
    exact (bytewise_pure ()).passes rfl
  · rw [readDebug_eq] at h
    obtain ⟨lines, m, hlines, h⟩ := ok_of_bind h
    obtain ⟨names, m', hnames, h⟩ := ok_of_bind h
    cases h
    obtain ⟨offsets, m'', hoffsets, hlines⟩ := ok_of_bind hlines
    cases hlines
    exact (passes_times (fun _ _ _ => passes_uint) hoffsets).skip ((bytewise_names _).passes hnames)

/-- A record takes the functions that its child constants stand for, in the order of the
constants, and leaves no messages but those about unknown opcodes. -/
theorem passes_body {stripped : Bool} {flags : PrototypeFlags}
    (h : readBody numbering stripped flags s = .ok p t) :
    ∃ notes, Passes s t (p.complex.flatMap childOf) notes ∧ ∀ line ∈ notes, IsWarning line := by
  rw [readBody_eq] at h
  obtain ⟨c, m, hcounts, h⟩ := ok_of_bind h
  obtain ⟨instructions, s1, hinstructions, h⟩ := ok_of_bind h
  obtain ⟨upvalues, s2, hupvalues, h⟩ := ok_of_bind h
  obtain ⟨complex, s3, hcomplex, h⟩ := ok_of_bind h
  obtain ⟨numbers, s4, hnumbers, h⟩ := ok_of_bind h
  obtain ⟨debug, s5, hdebug, h⟩ := ok_of_bind h
  cases h
  obtain ⟨notes, hnotes, hwarnings⟩ := passes_instructions hinstructions
  refine ⟨notes, ?_, hwarnings⟩
  have hbefore := ((bytewise_counts stripped).passes hcounts).trans hnotes
  have hmiddle := (hbefore.skip (passes_times (fun _ _ _ => passes_uint) hupvalues)).trans
    (passes_constants hcomplex)
  simp only [List.append_nil, List.nil_append] at hmiddle
  exact (hmiddle.skip ((bytewise_number.times _).passes hnumbers)).skip (passes_debug hdebug)

end

end LuaLift.Proofs
