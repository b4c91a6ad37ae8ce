import LuaLift.Dump.File
import LuaLift.Proofs.Branching
import LuaLift.Proofs.Bytewise

/-! # Functions of an accepted dump

What is known of a function because it was read from a dump: its instructions are decoded
words, its variables have names, and its children were read before it. -/
namespace LuaLift.Proofs
open Bytecode Dump

variable {α β : Type}

/-- A function as a reader makes it. -/
structure Decoded (p : Prototype) : Prop where
  words : ∀ i ∈ p.instructions.drop 1, ∃ word, i = decodeWord .current p.complex.length word
  names : ∀ v ∈ p.debug.locals, v.name ≠ ""

/-! ## Results of readers -/

/-- A reader that succeeds gives a result with a property. -/
def Gives (r : Read α) (Q : α → Prop) : Prop := ∀ ⦃s t : Source⦄ ⦃a : α⦄, r s = .ok a t → Q a

section
variable {r : Read α} {f : α → Read β} {Q : α → Prop} {R : β → Prop}

theorem Gives.bind (h : Gives r Q) (h' : ∀ a, Q a → Gives (f a) R) : Gives (r >>= f) R := by
  intro s t b hr
  obtain ⟨a, m, hfirst, hsecond⟩ := ok_of_bind hr
  exact h' a (h hfirst) hsecond

theorem gives_any : Gives r fun _ => True := by
  intro s t a _
  trivial

theorem gives_pure {a : α} (h : Q a) : Gives (pure a) Q := by
  intro s t b hr
  cases hr
  exact h

theorem Gives.times (h : Gives r Q) (n : Nat) :
    Gives (Read.times n r) fun xs => xs.length = n ∧ ∀ x ∈ xs, Q x := by
  induction n with
  | zero => exact gives_pure (by simp)
  | succ n ih =>
    refine h.bind fun x hx => ih.bind fun xs hxs => gives_pure ⟨by simp [hxs.1], ?_⟩
    simpa using ⟨hx, hxs.2⟩

end

theorem gives_instruction (count : Nat) :
    Gives (readInstruction .current count) fun i => ∃ word, i = decodeWord .current count word := by
  refine gives_any.bind fun word _ => ?_
  dsimp only
  split
  · exact gives_any.bind fun _ _ => gives_pure ⟨word, rfl⟩
  · exact gives_pure ⟨word, rfl⟩

theorem gives_asciiText (b : UInt8) (bs : Bytes) : Gives (Read.asciiText (b :: bs)) (· ≠ "") := by
  intro s t name hr
  unfold Read.asciiText at hr
  split at hr
  · cases hr
    simp
  · cases hr

theorem gives_variableName (tag : Nat) : Gives (readVariableName tag) (·.1 ≠ "") := by
  unfold readVariableName
  split
  · rename_i name hname
    refine gives_pure ?_
    unfold internalName? at hname
    split at hname <;> cases hname <;> simp
  · refine gives_any.bind fun bs _ => ?_
    exact (gives_asciiText tag.toUInt8 bs).bind fun name hname => gives_pure hname

theorem gives_variable (lastStart tag : Nat) : Gives (readVariable lastStart tag) (·.name ≠ "") := by
  refine (gives_variableName tag).bind fun head hname => ?_
  exact gives_any.bind fun start _ => gives_any.bind fun stop _ => gives_pure hname

theorem gives_variables (fuel lastStart : Nat) :
    Gives (readVariables fuel lastStart) fun vs => ∀ v ∈ vs, v.name ≠ "" := by
  induction fuel generalizing lastStart with
  | zero =>
    intro s t vs hr
    cases hr
  | succ fuel ih =>
    rw [readVariables_succ]
    refine gives_any.bind fun tag _ => ?_
    split
    · exact gives_pure (by simp)
    · refine (gives_variable lastStart tag).bind fun v hv => (ih v.start).bind fun vs hvs => ?_
      exact gives_pure (by simpa using ⟨hv, hvs⟩)

theorem gives_debugSection (c : Counts) :
    Gives (readDebugSection c) fun d => ∀ v ∈ d.locals, v.name ≠ "" := by
  unfold readDebugSection
  split
  · exact gives_pure (by simp)
  · refine gives_any.bind fun lines _ => gives_any.bind fun upvalues _ => ?_
    intro s t d hr
    rw [run_get] at hr
    obtain ⟨vs, m, hvs, hr⟩ := ok_of_bind hr
    cases hr
    exact gives_variables _ 0 hvs

/-! ## Children -/

variable {s t : Source}

variable {stripped : Bool} {bytes : Bytes} {header : Header} {numbering : Numbering} {p : Prototype}
  {origin : String}

theorem decoded_of_contents {flags : PrototypeFlags} {c : Counts}
    (h : readContents .current flags c s = .ok p t) : Decoded p := by
  obtain ⟨instructions, s1, hinstructions, h⟩ := ok_of_bind h
  obtain ⟨upvalues, s2, hupvalues, h⟩ := ok_of_bind h
  obtain ⟨complex, s3, hcomplex, h⟩ := ok_of_bind h
  obtain ⟨numbers, s4, hnumbers, h⟩ := ok_of_bind h
  obtain ⟨debug, s5, hdebug, h⟩ := ok_of_bind h
  cases h
  have hcount := (gives_any.times _ hcomplex).1
  have hwords := ((gives_instruction _).times _ hinstructions).2
  constructor
  · simpa [hcount] using hwords
  · exact gives_debugSection c hdebug

/-! ## Records -/

/-- The function of a record is decoded, and its children are the newest that waited. -/
theorem decoded_of_record (h : readRecord .current stripped s = .ok (some p) t) :
    Decoded p ∧ s.pending = p.complex.flatMap childOf ++ t.pending := by
  obtain ⟨size, bits, flags, start, inner, hrun⟩ := readRecord_iff.mp h
  have hsize := bytewise_uleb.passes hrun.readSize
  have hbits := bytewise_byte.passes hrun.readBits
  obtain ⟨notes, hbody, -⟩ := passes_body hrun.readBody
  refine ⟨?_, ((hsize.trans hbits).trans hbody).pending⟩
  have hdecoded := hrun.readBody
  rw [readBody_eq] at hdecoded
  obtain ⟨c, m, hcounts, hcontents⟩ := ok_of_bind hdecoded
  exact decoded_of_contents hcontents

/-- How a record gives no function: its size is zero, or fewer bytes than its size follow, or its
flags have no meaning. The last two are given up with a message. -/
inductive NoRecord : Source → Source → Prop
  | empty {s t : Source} (readSize : Read.uleb s = .ok 0 t) : NoRecord s t
  | truncated {s t : Source} {size : Nat} (readSize : Read.uleb s = .ok size t) (nonempty : size ≠ 0)
      (short : (splitExactly size t.rest).isSome = false) :
      NoRecord s { t with log := t.log ++ ["File truncated"] }
  | unknownFlags {s start t : Source} {size bits : Nat} (readSize : Read.uleb s = .ok size start)
      (nonempty : size ≠ 0) (available : (splitExactly size start.rest).isSome)
      (readBits : Read.byte start = .ok bits t) (unknown : decodeFlags bits = none) :
      NoRecord s { t with
        log := t.log ++ ["Unknown prototype flags: " ++ binaryText 8 (bits / 32 * 32)] }

theorem readRecord_none_iff : readRecord numbering stripped s = .ok none t ↔ NoRecord s t := by
  constructor
  · intro h
    obtain ⟨size, start, hsize, h⟩ := ok_of_bind h
    split at h
    · rename_i hzero
      cases h
      obtain rfl : size = 0 := by simpa using hzero
      exact .empty hsize
    · rename_i hnonempty
      obtain ⟨available, start', havailable, h⟩ := ok_of_bind h
      cases havailable
      split at h
      · rename_i henough
        rw [run_get] at h
        obtain ⟨bits, inner, hbits, h⟩ := ok_of_bind h
        cases hflags : decodeFlags bits with
        | none =>
          rw [hflags] at h
          cases h
          exact .unknownFlags hsize (by simpa using hnonempty) henough hbits hflags
        | some flags =>
          rw [hflags] at h
          obtain ⟨q, t', hbody, h⟩ := ok_of_bind h
          rw [run_get] at h
          split at h <;> cases h
      · rename_i hshort
        cases h
        exact .truncated hsize (by simpa using hnonempty) (by simpa using hshort)
  · intro h
    cases h with
    | empty hsize =>
      rw [readRecord, run_bind hsize]
      rfl
    | @truncated start size hsize hnonempty hshort =>
      have havailable : Read.available size start = .ok false start := by
        rw [← hshort]
        rfl
      rw [readRecord, run_bind hsize, if_neg (by simpa using hnonempty), run_bind havailable]
      rfl
    | @unknownFlags start inner size bits hsize hnonempty henough hbits hflags =>
      have havailable : Read.available size start = .ok true start := by
        rw [← henough]
        rfl
      rw [readRecord, run_bind hsize, if_neg (by simpa using hnonempty), run_bind havailable, if_pos rfl,
        run_get, run_bind hbits, hflags]
      rfl

theorem NoRecord.pending (h : NoRecord s t) : t.pending = s.pending := by
  cases h with
  | empty hsize => exact (bytewise_uleb.passes hsize).pending.symm
  | truncated hsize _ _ => exact (bytewise_uleb.passes hsize).pending.symm
  | unknownFlags hsize _ _ hbits _ =>
    exact ((bytewise_uleb.passes hsize).trans (bytewise_byte.passes hbits)).pending.symm

/-! ## The loop over records -/

/-- The reader when a function that was read waits for its parent. -/
def withFunction (p : Prototype) (s : Source) : Source := { s with pending := p :: s.pending }

section
variable {numbering : Numbering} {stripped : Bool} {fuel : Nat} {p : Prototype} {u : Source}

theorem readRecord_ne_nil {found : Option Prototype} (h : readRecord numbering stripped s = .ok found t) :
    s.rest ≠ [] := needsInput_uleb.bind h

theorem readRecords_atEnd (h : s.rest = []) : readRecords numbering stripped fuel s = .ok true s := by
  cases fuel with
  | zero => rfl
  | succ fuel =>
    rw [readRecords, run_bind (show Read.atEnd s = .ok _ s from rfl), if_pos (by simp [h])]
    rfl

theorem readRecords_some (h : readRecord numbering stripped s = .ok (some p) t) :
    readRecords numbering stripped (fuel + 1) s =
      readRecords numbering stripped fuel (withFunction p t) := by
  rw [readRecords, run_bind (show Read.atEnd s = .ok _ s from rfl),
    if_neg (by simpa using readRecord_ne_nil h), run_bind h]
  rfl

theorem readRecords_none (h : readRecord numbering stripped s = .ok none t) (hend : t.rest = []) :
    readRecords numbering stripped (fuel + 1) s = .ok true t := by
  rw [readRecords, run_bind (show Read.atEnd s = .ok _ s from rfl),
    if_neg (by simpa using readRecord_ne_nil h), run_bind h]
  dsimp only
  rw [run_bind (show Read.atEnd t = .ok _ t from rfl), if_pos (by simp [hend])]
  rfl

theorem readRecords_succ (h : readRecords numbering stripped (fuel + 1) s = .ok true u) :
    s.rest = [] ∧ u = s ∨
    (∃ p t, readRecord numbering stripped s = .ok (some p) t ∧
      readRecords numbering stripped fuel (withFunction p t) = .ok true u) ∨
    readRecord numbering stripped s = .ok none u ∧ u.rest = [] := by
  obtain ⟨atEnd, m, hend, h⟩ := ok_of_bind h
  obtain ⟨rfl, rfl⟩ : s.rest.isEmpty = atEnd ∧ s = m := by
    cases hend
    exact ⟨rfl, rfl⟩
  split at h
  · rename_i hnil
    cases h
    exact .inl ⟨by simpa using hnil, rfl⟩
  · obtain ⟨found, m, hfound, h⟩ := ok_of_bind h
    cases found with
    | some p => exact .inr (.inl ⟨p, m, hfound, h⟩)
    | none =>
      obtain ⟨atEnd, m', hend, h⟩ := ok_of_bind h
      obtain ⟨rfl, rfl⟩ : m.rest.isEmpty = atEnd ∧ m = m' := by
        cases hend
        exact ⟨rfl, rfl⟩
      split at h
      · rename_i hnil
        cases h
        exact .inr (.inr ⟨hfound, by simpa using hnil⟩)
      · cases h

end

/-- Reading records keeps what holds throughout the waiting functions. -/
theorem decoded_of_records {fuel : Nat} (hs : ∀ q ∈ s.pending, Throughout Decoded q)
    (h : readRecords .current stripped fuel s = .ok true t) : ∀ q ∈ t.pending, Throughout Decoded q := by
  induction fuel generalizing s with
  | zero =>
    cases h
    exact hs
  | succ fuel ih =>
    rcases readRecords_succ h with ⟨-, rfl⟩ | ⟨p, m, hrecord, h⟩ | ⟨hnone, -⟩
    · exact hs
    · obtain ⟨hp, hpending⟩ := decoded_of_record hrecord
      rw [hpending] at hs
      refine ih ?_ h
      intro q hq
      rcases List.mem_cons.mp hq with rfl | hq
      · refine .tree hp fun child hchild => hs child (List.mem_append_left _ ?_)
        exact List.mem_flatMap.mpr ⟨.child child, hchild, List.mem_cons_self⟩
      · exact hs q (List.mem_append_right _ hq)
    · rw [(readRecord_none_iff.mp hnone).pending]
      exact hs

/-! ## Dumps -/

theorem local_header (origin : String) : Local (readHeader origin) := by
  have hnote : ∀ line, Local (do Read.note line; return (none : Option Header)) :=
    fun line => (local_note line).bind fun _ => local_pure none
  refine (local_bytes 3).bind fun magic => ?_
  split
  · exact hnote _
  · refine local_byte.bind fun version => ?_
    split
    · exact hnote _
    · refine local_uleb.bind fun bits => ?_
      dsimp only
      split
      · exact hnote _
      · split
        · exact local_pure _
        · exact local_uleb.bind fun size => (local_text size).map _

/-- The reader behind a header, which tells the byte order. -/
def behindHeader (header : Header) (s : Source) : Source :=
  { s with order := if header.flags.bigEndian then .big else .little }

theorem read_eq_iff {log : List String} :
    Dump.read numbering origin bytes = ⟨.ok (some (header, p)), log⟩ ↔
      ∃ s t, readHeader origin (.ofBytes bytes) = .ok (some header) s ∧
        readRecords numbering header.flags.stripped s.rest.length (behindHeader header s) = .ok true t ∧
        t.rest = [] ∧ t.pending = [p] ∧ t.log = log := by
  constructor
  · intro h
    unfold Dump.read at h
    split at h
    · rename_i found t hparts
      obtain ⟨first, s, hheader, hparts⟩ := ok_of_bind hparts
      cases first with
      | none => cases hparts
      | some first =>
        obtain ⟨_, m, horder, hparts⟩ := ok_of_bind hparts
        cases horder
        rw [run_get] at hparts
        obtain ⟨accepted, m, hrecords, hparts⟩ := ok_of_bind hparts
        split at hparts
        · rename_i haccepted
          cases hparts
          subst haccepted
          unfold finish at h
          split at h
          · cases h
          · rename_i hrest
            split at h
            · rename_i q hpending
              cases h
              exact ⟨s, t, hheader, hrecords, by simpa using hrest, hpending, rfl⟩
            · cases h
        · cases hparts
    · cases h
    · split at h <;> cases h
  · rintro ⟨s, t, hheader, hrecords, hrest, hpending, rfl⟩
    have hparts : readParts numbering origin (.ofBytes bytes) = .ok (some header) t := by
      rw [readParts, run_bind hheader]
      exact (run_bind hrecords).trans rfl
    rw [Dump.read, EStateM.run, hparts]
    simp [finish, hrest, hpending]

/-- The functions of an accepted dump are as a reader makes them. -/
theorem accepted_decoded (h : (Dump.read .current origin bytes).result = .ok (some (header, p))) :
    Throughout Decoded p := by
  obtain ⟨s, t, hheader, hrecords, -, hpending, -⟩ := read_eq_iff.mp (congrArg (Reading.mk · _) h)
  obtain ⟨used, hused⟩ := (local_header origin).consumes hheader
  have hnone : (behindHeader header s).pending = [] := List.eq_nil_of_suffix_nil hused.pending
  exact decoded_of_records (by simp [hnone]) hrecords p (by simp [hpending])

end LuaLift.Proofs
