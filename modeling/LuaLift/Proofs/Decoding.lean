import Mathlib.Data.Nat.Bitwise
import LuaLift.Dump.File
import LuaLift.Proofs.Assembling

/-! # Reading what was assembled

`Takes r bytes taken a` says that reader `r` reads exactly `bytes`, takes the waiting
functions `taken` as children and gives `a`, whatever follows. Each encoder is matched by
its reader in this sense, from numbers up to records. A record then takes the functions
that its child constants stand for from the front of the waiting ones, and the whole
dump is read back as the tree that it was made from. -/
namespace LuaLift.Proofs
open Bytecode Dump

variable {α β : Type}

/-- A reader reads exactly `bytes`, takes the functions `taken`, and gives `a`. -/
def Takes (r : Read α) (bytes : Bytes) (taken : List Prototype) (a : α) : Prop :=
  ∀ (s : Source) (rest : Bytes) (others : List Prototype), s.order = .little →
    s.rest = bytes ++ rest → s.pending = taken ++ others →
    r s = .ok a { s with rest := rest, pending := others }

variable {σ : Type} {xs ys rest : Bytes} {i : Instruction} {v : Int} {ps qs others : List Prototype}
  {n op count : Nat} {o : Opcode} {p : Prototype} {r : Read α} {s : Source} {a : α} {encode : α → Bytes}
  {f : α → Read β} {b : β}

theorem run_bind {r : EStateM Fault σ α} {f : α → EStateM Fault σ β} {s s' : σ} (h : r s = .ok a s') :
    (r >>= f) s = f a s' := by
  change EStateM.bind r f s = _
  rw [EStateM.bind, h]

theorem run_get {f : σ → EStateM Fault σ β} {s : σ} : (get >>= f) s = f s s := rfl

theorem Takes.bind (h : Takes r xs ps a) (h' : Takes (f a) ys qs b) :
    Takes (r >>= f) (xs ++ ys) (ps ++ qs) b := by
  intro s rest others ho hr hp
  rw [run_bind (h s (ys ++ rest) (qs ++ others) ho (by rw [hr, List.append_assoc])
    (by rw [hp, List.append_assoc]))]
  exact h' _ rest others ho rfl rfl

theorem Takes.pure (a : α) : Takes (Pure.pure a) [] [] a := by
  intro s rest others _ hr hp
  cases hr
  cases hp
  rfl

theorem Takes.before (h : Takes r xs ps a) (h' : Takes (f a) ys [] b) : Takes (r >>= f) (xs ++ ys) ps b := by
  have := h.bind h'
  rwa [List.append_nil] at this

theorem Takes.finish (h : Takes r xs ps a) (h' : Takes (f a) [] [] b) : Takes (r >>= f) xs ps b := by
  have := h.before h'
  rwa [List.append_nil] at this

theorem Takes.map (f : α → β) (h : Takes r xs ps a) :
    Takes (do return f (← r)) xs ps (f a) := h.finish (.pure (f a))

theorem takes_times {t : α → List Prototype} {xs : List α} (h : ∀ x ∈ xs, Takes r (encode x) (t x) x) :
    Takes (Read.times xs.length r) (xs.flatMap encode) (xs.flatMap t) xs := by
  induction xs with
  | nil => exact .pure []
  | cons x xs ih =>
    refine (h x List.mem_cons_self).bind ?_
    exact (ih fun y hy => h y (List.mem_cons_of_mem _ hy)).map (x :: ·)

theorem takes_times_alone {xs : List α} (h : ∀ x ∈ xs, Takes r (encode x) [] x) :
    Takes (Read.times xs.length r) (xs.flatMap encode) [] xs := by
  have hall := takes_times (t := fun _ => []) h
  rwa [List.flatMap_eq_nil_iff.mpr fun _ _ => rfl] at hall

/-! ## Bytes and numbers -/

theorem byte_apply (s : Source) : Read.byte s = match s.rest with
    | [] => .error .endOfByte s
    | b :: r => .ok b.toNat { s with rest := r } := by
  rw [Read.byte, run_get]
  cases s.rest <;> rfl

theorem takes_byte (b : UInt8) : Takes Read.byte [b] [] b.toNat := by
  intro s rest others _ hr hp
  cases s
  cases hr
  cases hp
  rfl

theorem splitExactly_append (xs ys : List α) : splitExactly xs.length (xs ++ ys) = some (xs, ys) := by
  induction xs with
  | nil => rfl
  | cons x xs ih => simp [splitExactly, ih]

theorem bytes_apply (n : Nat) (s : Source) : Read.bytes n s = match splitExactly n s.rest with
    | none => .error (.endOfInput n) s
    | some (bs, r) => .ok bs { s with rest := r } := by
  rw [Read.bytes, run_get]
  cases splitExactly n s.rest <;> rfl

theorem takes_bytes (bs : Bytes) : Takes (Read.bytes bs.length) bs [] bs := by
  intro s rest others _ hr hp
  obtain rfl : s.pending = others := hp
  rw [bytes_apply, hr, splitExactly_append]

theorem toNat_toUInt8 (h : n < 256) : n.toUInt8.toNat = n := by
  simp [Nat.mod_eq_of_lt h]

theorem toUInt8_lt (h : n < 256) : n.toUInt8 < 0x80 ↔ n < 128 := by
  rw [UInt8.lt_iff_toNat_lt, toNat_toUInt8 h]
  rfl

theorem uleb128_uleb (n : Nat) (rest : Bytes) : uleb128 (Encode.uleb n ++ rest) = some (n, rest) := by
  induction n using Nat.strongRecOn with
  | ind n ih =>
    rw [Encode.uleb]
    split
    · rename_i h
      rw [List.cons_append, List.nil_append, uleb128, if_pos ((toUInt8_lt (by omega)).mpr h),
        toNat_toUInt8 (by omega)]
    · have hbyte : n % 128 + 128 < 256 := by omega
      have hmore : ¬ (n % 128 + 128).toUInt8 < 0x80 := by
        rw [toUInt8_lt hbyte]
        omega
      rw [List.cons_append, uleb128, if_neg hmore, ih (n / 128) (by omega), Option.map_some,
        toNat_toUInt8 hbyte]
      have hvalue : (n % 128 + 128) % 128 + 128 * (n / 128) = n := by omega
      simp only [hvalue]

theorem uleb128WithBit_uleb (n bit : Nat) (hb : bit < 2) (rest : Bytes) :
    uleb128WithBit (Encode.uleb (2 * n + bit) ++ rest) = some ((bit, n), rest) := by
  rw [Encode.uleb]
  split
  · have hv : (2 * n + bit) / 2 < 0x40 := by omega
    rw [List.cons_append, List.nil_append, uleb128WithBit, toNat_toUInt8 (by omega)]
    simp only [hv, if_true]
    congr 3 <;> omega
  · have hbyte : (2 * n + bit) % 128 + 128 < 256 := by omega
    have hv : ¬ ((2 * n + bit) % 128 + 128) / 2 < 0x40 := by omega
    rw [List.cons_append, uleb128WithBit, toNat_toUInt8 hbyte]
    simp only [hv, if_false, uleb128_uleb, Option.map_some]
    congr 3 <;> omega

theorem takes_decoded {decode : Bytes → Option (α × Bytes)} {bs : Bytes}
    (h : ∀ rest, decode (bs ++ rest) = some (a, rest)) : Takes (Read.decoded decode) bs [] a := by
  intro s rest others _ hr hp
  obtain rfl : s.pending = others := hp
  change (match decode s.rest with | some (v, r) => _ | none => _ : Read _) s = _
  rw [hr, h]
  rfl

theorem takes_uleb (n : Nat) : Takes Read.uleb (Encode.uleb n) [] n :=
  takes_decoded (uleb128_uleb n)

theorem takes_ulebWithBit (n bit : Nat) (hb : bit < 2) :
    Takes Read.ulebWithBit (Encode.uleb (2 * n + bit)) [] (bit, n) :=
  takes_decoded (uleb128WithBit_uleb n bit hb)

theorem takes_uint (bs : Bytes) : Takes (Read.uint bs.length) bs [] (littleEndian bs) := by
  intro s rest others ho hr hp
  change EStateM.bind (Read.bytes bs.length) _ s = _
  unfold EStateM.bind
  rw [takes_bytes bs s rest others ho hr hp]
  cases s
  cases ho
  rfl

theorem takes_tag (n : Nat) (h : n < 128) : Takes Read.uleb [n.toUInt8] [] n := by
  have := takes_uleb n
  rwa [Encode.uleb, if_pos h] at this

/-! ## Texts -/

theorem toList_loop (bs : ByteArray) (i : Nat) (r : List UInt8) :
    ByteArray.toList.loop bs i r = r.reverse ++ bs.data.toList.drop i := by
  fun_induction ByteArray.toList.loop bs i r with
  | case1 i r h ih =>
    have hi : i < bs.data.toList.length := by simpa using h
    have hget : bs.get! i = bs.data.toList[i] := getElem!_pos bs.data i h
    rw [ih, List.drop_eq_getElem_cons hi, hget]
    simp
  | case2 i r h =>
    have hi : bs.data.toList.length ≤ i := by simpa using h
    simp [List.drop_eq_nil_of_le hi]

theorem toArray_toList (bs : ByteArray) : (⟨bs.toList.toArray⟩ : ByteArray) = bs := by
  simp [ByteArray.toList, toList_loop]

theorem fromUTF8?_toUTF8 (s : String) : String.fromUTF8? s.toUTF8 = some s := by
  simpa [String.fromUTF8?] using ⟨s.isValidUTF8, rfl⟩

theorem takes_text (s : String) : Takes (Read.text s.toUTF8.toList.length) s.toUTF8.toList [] s := by
  refine (takes_bytes _).finish ?_
  rw [toArray_toList, fromUTF8?_toUTF8]
  exact .pure s

/-! ## Numbers of constants -/

theorem doubleOfHalves_halves (bits : UInt64) :
    doubleOfHalves (Encode.halves bits).1 (Encode.halves bits).2 = .ok (.double bits) := by
  have hlow : bits.toNat % 2 ^ 32 < 2 ^ 32 := Nat.mod_lt _ (by decide)
  have hor := Nat.two_pow_add_eq_or_of_lt hlow (bits.toNat / 2 ^ 32)
  rw [Nat.div_add_mod, Nat.mul_comm] at hor
  have hsize := bits.toNat_lt
  simp only [Nat.reducePow] at hor hsize
  simp [doubleOfHalves, Encode.halves, ← hor, hsize]

theorem signed_twosComplement (h : numberFits (.int v)) : signed (Encode.twosComplement v) = v := by
  have h : -2 ^ 31 ≤ v ∧ v < 2 ^ 31 := by simpa [numberFits] using h
  unfold signed Encode.twosComplement
  split <;> rename_i hbit <;> simp only [beq_iff_eq] at hbit <;> omega

theorem takes_double (bits : UInt64) : Takes readDouble (Encode.double bits) [] (.double bits) := by
  refine (takes_uleb _).bind ((takes_uleb _).finish ?_)
  have h := doubleOfHalves_halves bits
  dsimp only [Encode.halves] at h
  rw [h]
  exact .pure _

theorem takes_number {n : Number} (h : numberFits n) : Takes readNumber (Encode.number n) [] n := by
  cases n with
  | int v =>
    refine (takes_ulebWithBit (Encode.twosComplement v) 0 (by decide)).finish ?_
    have hint : Takes (Pure.pure (Number.int (signed (Encode.twosComplement v)))) [] [] (.int v) := by
      rw [signed_twosComplement h]
      exact .pure _
    exact hint
  | double bits =>
    refine (takes_ulebWithBit _ 1 (by decide)).bind ((takes_uleb _).finish ?_)
    have h := doubleOfHalves_halves bits
    dsimp only [Encode.halves] at h
    rw [h]
    exact .pure _

/-! ## Tables and complex constants -/

theorem takes_item {x : TableItem} (h : itemFits x) : Takes readTableItem (Encode.tableItem x) [] x := by
  match x, h with
  | .nil, _ => exact (takes_tag 0 (by decide)).finish (.pure _)
  | .bool false, _ => exact (takes_tag 1 (by decide)).finish (.pure _)
  | .bool true, _ => exact (takes_tag 2 (by decide)).finish (.pure _)
  | .number (.int v), h =>
    refine (takes_tag 3 (by decide)).bind ((takes_uleb _).finish ?_)
    rw [signed_twosComplement h]
    exact .pure _
  | .number (.double bits), _ => exact (takes_tag 4 (by decide)).bind ((takes_double bits).map _)
  | .text s, _ => exact (takes_uleb _).bind ((takes_text s).map _)

/-- The bytes of a table behind its tag. -/
def tableBytes (t : TableConstant) : Bytes :=
  Encode.uleb t.array.length ++ (Encode.uleb t.entries.length ++ (t.array.flatMap Encode.tableItem
    ++ t.entries.flatMap fun e => Encode.tableItem e.1 ++ Encode.tableItem e.2))

theorem table_eq (t : TableConstant) : Encode.table t = 1 :: tableBytes t := by
  simp [Encode.table, Encode.tableOf, tableBytes, List.flatMap_def, Function.comp_def]

theorem takes_table {t : TableConstant} (h : tableFits t) : Takes readTable (tableBytes t) [] t := by
  simp only [tableFits, Bool.and_eq_true, List.all_eq_true] at h
  have harray := takes_times_alone fun x hx => takes_item (h.1 x hx)
  have hentries := takes_times_alone fun e he =>
    (takes_item (h.2 e he).1).bind (f := fun key => do return (key, ← readTableItem))
      ((takes_item (h.2 e he).2).map (e.1, ·))
  refine (takes_uleb _).bind ((takes_uleb _).bind (harray.bind ?_))
  exact hentries.map (TableConstant.mk t.array)

/-- The functions that a constant stands for. -/
def childOf : Complex Prototype → List Prototype
  | .child p => [p]
  | _ => []

theorem takePending_apply (s : Source) : takePending s = match s.pending with
    | [] => .error .outside s
    | p :: ps => .ok p { s with pending := ps } := by
  rw [takePending, run_get]
  cases s.pending <;> rfl

theorem takes_pending (p : Prototype) : Takes takePending [] [p] p := by
  intro s rest others _ hr hp
  obtain rfl : s.rest = rest := hr
  rw [takePending_apply, hp]
  rfl

theorem takes_complex {c : Complex Prototype} (h : complexFits c) :
    Takes readComplex (Encode.complex c) (childOf c) c := by
  match c, h with
  | .text s, _ => exact (takes_uleb _).bind ((takes_text s).map _)
  | .table t, h =>
    rw [Encode.complex, table_eq]
    exact (takes_tag 1 (by decide)).bind ((takes_table h).map _)
  | .number (.double bits), _ => exact (takes_tag 2 (by decide)).bind ((takes_double bits).map _)
  | .pair (.double re) (.double im), _ =>
    exact (takes_tag 4 (by decide)).bind ((takes_double re).bind ((takes_double im).map _))
  | .child p, _ => exact (takes_tag 0 (by decide)).bind ((takes_pending p).map _)

/-! ## Instructions -/

theorem operandValue_bits {kind : OperandKind} {value : Int} (h : 0 ≤ Encode.operandBits count kind value) :
    operandValue count kind (Encode.operandBits count kind value).toNat = value := by
  cases kind <;> simp only [operandValue, Encode.operandBits, Encode.constantIndex] at h ⊢ <;> omega

section
variable {count width : Nat} {kind : Option OperandKind} {value : Option Int}

theorem operandFits_range (h : operandFits count width kind value) :
    0 ≤ Encode.fieldBits count kind value ∧ Encode.fieldBits count kind value < 2 ^ width := by
  match kind, value, h with
  | none, none, _ => exact ⟨Int.le_refl 0, Int.pow_pos (by decide)⟩
  | some _, some _, h => simpa [operandFits, Encode.fieldBits] using h

theorem operandFits_decode (h : operandFits count width kind value) :
    kind.map (operandValue count · (Encode.fieldBits count kind value).toNat) = value := by
  match kind, value, h with
  | none, none, _ => rfl
  | some k, some v, h => exact congrArg some (operandValue_bits (operandFits_range h).1)

end

theorem decode_number (h : o ≠ .unknw) : Numbering.current.decode o.number = some o := by
  cases o <;> first | rfl | exact absurd rfl h

/-- A word is read alike in both numberings just if its opcode stands before all that one of them lacks. -/
theorem decodeWord_earlier_iff {word : Nat} (h : word % 256 < Numbering.earlier.table.length) :
    decodeWord .earlier count word = decodeWord .current count word ↔
      word % 256 < Opcode.istype.number := by
  have hop : ∀ c < Numbering.earlier.table.length, (Numbering.earlier.decode c).getD .unknw =
      (Numbering.current.decode c).getD .unknw ↔ c < Opcode.istype.number := by decide
  rw [← hop _ h]
  exact ⟨congrArg Instruction.op, fun he => by simp only [decodeWord, he]⟩

theorem number_lt (o : Opcode) : o.number < 256 := by
  cases o <;> decide

theorem instruction_eq (count : Nat) (i : Instruction) : Encode.instruction count i =
    if i.shape.operandCount = 3 then
      Encode.abc i.code (Encode.fieldBits count i.shape.a i.a) (Encode.fieldBits count i.shape.b i.b)
        (Encode.fieldBits count i.shape.cd i.cd)
    else Encode.ad i.code (Encode.fieldBits count i.shape.a i.a)
      (Encode.fieldBits count i.shape.cd i.cd) := by
  unfold Encode.instruction
  split
  · rfl
  · split
    · rename_i hkind hvalue
      rw [hkind, hvalue]
      rfl
    · rfl

theorem lowByte_toNat (h : 0 ≤ v ∧ v < 2 ^ 8) : (Encode.lowByte v).toNat = v.toNat := by
  rw [Encode.lowByte, toNat_toUInt8 (by omega)]
  omega

theorem littleEndian_abc {a b c : Int} (hop : op < 256) (ha : 0 ≤ a ∧ a < 2 ^ 8) (hb : 0 ≤ b ∧ b < 2 ^ 8)
    (hc : 0 ≤ c ∧ c < 2 ^ 8) : littleEndian (Encode.abc op a b c) =
      op + 2 ^ 8 * a.toNat + 2 ^ 16 * c.toNat + 2 ^ 24 * b.toNat := by
  simp only [Encode.abc, littleEndian, lowByte_toNat ha, lowByte_toNat hb, lowByte_toNat hc,
    lowByte_toNat (v := op) (by omega)]
  omega

theorem littleEndian_ad {a d : Int} (hop : op < 256) (ha : 0 ≤ a ∧ a < 2 ^ 8) (hd : 0 ≤ d ∧ d < 2 ^ 16) :
    littleEndian (Encode.ad op a d) =
      op + 2 ^ 8 * a.toNat + 2 ^ 16 * d.toNat := by
  have hlow : (Encode.lowByte d).toNat = (d % 256).toNat := by
    rw [Encode.lowByte, toNat_toUInt8 (by omega)]
  simp only [Encode.ad, Encode.short, littleEndian, lowByte_toNat ha, hlow,
    lowByte_toNat (v := op) (by omega), lowByte_toNat (v := d / 256) (by omega)]
  omega

theorem decodeWord_eq {word : Nat} (h : InstructionFits count i) (hcode : word % 256 = i.code)
    (ha : word / 2 ^ 8 % 256 = (Encode.fieldBits count i.shape.a i.a).toNat)
    (hb : i.shape.b ≠ none → word / 2 ^ 24 % 256 = (Encode.fieldBits count i.shape.b i.b).toNat)
    (hcd : (if i.shape.operandCount == 3 then word / 2 ^ 16 % 256 else word / 2 ^ 16 % 65536) =
      (Encode.fieldBits count i.shape.cd i.cd).toNat) :
    decodeWord .current count word = i := by
  have hop : (Numbering.current.decode i.code).getD .unknw = i.op := by
    rw [h.code, decode_number h.known, Option.getD_some]
  have hva := operandFits_decode h.a
  have hvb : i.shape.b.map (operandValue count · (word / 2 ^ 24 % 256)) = i.b := by
    cases hkind : i.shape.b with
    | none =>
      have := operandFits_decode h.b
      rwa [hkind] at this
    | some k =>
      rw [← hkind, hb (by simp [hkind])]
      exact operandFits_decode h.b
  have hvcd := operandFits_decode h.cd
  rw [← ha] at hva
  rw [← hcd] at hvcd
  unfold decodeWord
  simp only [hcode, hop]
  exact congr (congr (congrArg (Instruction.mk _ _) hva) hvb) hvcd

theorem operandCount_of_b (h : o.shape.b ≠ none) : o.shape.operandCount = 3 := by
  cases o <;> first | rfl | exact absurd rfl h

theorem decodeWord_instruction (h : InstructionFits count i) :
    decodeWord .current count (littleEndian (Encode.instruction count i)) = i := by
  have hcode := number_lt i.op
  rw [← h.code] at hcode
  obtain ⟨ha0, ha⟩ := operandFits_range h.a
  obtain ⟨hb0, hb⟩ := operandFits_range h.b
  obtain ⟨hc0, hc⟩ := operandFits_range h.cd
  rw [instruction_eq]
  split
  · rename_i hthree
    rw [if_pos hthree] at hc
    rw [littleEndian_abc hcode ⟨ha0, ha⟩ ⟨hb0, hb⟩ ⟨hc0, hc⟩]
    refine decodeWord_eq h (by omega) (by omega) (fun _ => by omega) ?_
    rw [if_pos (by simpa using hthree)]
    omega
  · rename_i hthree
    rw [if_neg hthree] at hc
    rw [littleEndian_ad hcode ⟨ha0, ha⟩ ⟨hc0, hc⟩]
    refine decodeWord_eq h (by omega) (by omega) (fun hb => absurd (operandCount_of_b hb) hthree) ?_
    rw [if_neg (by simpa using hthree)]
    omega

theorem instruction_length (count : Nat) (i : Instruction) : (Encode.instruction count i).length = 4 := by
  rw [instruction_eq]
  split <;> rfl

theorem takes_instruction (h : InstructionFits count i) :
    Takes (readInstruction .current count) (Encode.instruction count i) [] i := by
  have hword := takes_uint (Encode.instruction count i)
  rw [instruction_length] at hword
  refine hword.finish ?_
  have hdecoded := decodeWord_instruction h
  have hknown : Numbering.current.decode (littleEndian (Encode.instruction count i) % 256) ≠ none := by
    intro hnone
    rw [decodeWord, hnone] at hdecoded
    exact h.known (congrArg Instruction.op hdecoded).symm
  rw [if_neg (by simpa using hknown), hdecoded]
  exact .pure i

/-! ## Records -/

theorem decodeFlags_flagByte (f : PrototypeFlags) : decodeFlags (Encode.flagByte f) = some f := by
  obtain ⟨_ | _, _ | _, _ | _, _ | _, _ | _⟩ := f <;> rfl

theorem flagByte_lt (f : PrototypeFlags) : Encode.flagByte f < 256 := by
  obtain ⟨_ | _, _ | _, _ | _, _ | _, _ | _⟩ := f <;> decide

theorem takes_lowByte (h : n < 256) : Takes Read.byte [Encode.lowByte n] [] n := by
  have := takes_byte (Encode.lowByte n)
  rwa [lowByte_toNat (by omega), Int.toNat_natCast] at this

theorem takes_short (h : n < 65536) : Takes (Read.uint 2) (Encode.short n) [] n := by
  have hlow : (Encode.lowByte n).toNat = n % 256 := by
    rw [Encode.lowByte, toNat_toUInt8 (by omega)]
    omega
  have hhigh : (Encode.lowByte ((n : Int) / 256)).toNat = n / 256 := by
    rw [lowByte_toNat (by omega)]
    omega
  have hvalue : littleEndian (Encode.short n) = n := by
    simp only [Encode.short, littleEndian, hlow, hhigh]
    omega
  have := takes_uint (Encode.short n)
  rwa [hvalue] at this

/-- What follows the flags in the record of a function. -/
def bodyBytes (p : Prototype) : Bytes :=
  [Encode.lowByte p.argumentCount] ++ ([Encode.lowByte p.framesize] ++
    ([Encode.lowByte p.upvalues.length] ++ (Encode.uleb p.complex.length ++
    (Encode.uleb p.numbers.length ++ (Encode.uleb (p.instructions.drop 1).length ++
    ((p.instructions.drop 1).flatMap (Encode.instruction p.complex.length) ++
    (p.upvalues.flatMap (fun (n : Nat) => Encode.short n) ++
    (p.complex.flatMap Encode.complex ++ p.numbers.flatMap Encode.number))))))))

theorem body_recordOf (p : Prototype) :
    (Encode.recordOf p).body = Encode.lowByte (Encode.flagByte p.flags) :: bodyBytes p := by
  simp [Encode.Record.body, Encode.Record.debugHead, Encode.recordOf, bodyBytes, List.flatMap_def]

/-- A function that fits is made of what its record holds. -/
theorem FunctionFits.eta (h : FunctionFits p) :
    (⟨p.flags, p.argumentCount, p.framesize, 0, 0,
      Instruction.functionHeader p.flags.isVariadic p.framesize :: p.instructions.drop 1,
      p.upvalues, p.complex, p.numbers, {}⟩ : Prototype) = p := by
  obtain ⟨code, hcode⟩ := List.head?_eq_some_iff.mp h.header
  have hfirst := h.firstLine
  have hlines := h.lineCount
  have hdebug := h.debug
  cases p
  simp_all

theorem takes_body (h : FunctionFits p) :
    Takes (readBody .current true p.flags) (bodyBytes p) (p.complex.flatMap childOf) p := by
  have hinstructions := takes_times_alone fun i hi =>
    takes_instruction (h.instructions i hi)
  have hupvalues := takes_times_alone fun n hn => takes_short (h.upvalues n hn)
  have hcomplex := takes_times fun c hc => takes_complex (h.complex c hc)
  have hnumbers := takes_times_alone fun n hn => takes_number (h.numbers n hn)
  refine (takes_lowByte h.argumentCount).bind ?_
  refine (takes_lowByte h.framesize).bind ?_
  refine (takes_lowByte h.upvalueCount).bind ?_
  refine (takes_uleb _).bind ((takes_uleb _).bind ((takes_uleb _).bind ?_))
  simp only [if_true, pure_bind, beq_self_eq_true]
  refine hinstructions.bind (hupvalues.bind ?_)
  refine hcomplex.before (hnumbers.finish ?_)
  rw [h.eta]
  exact .pure p

section
variable (h : FunctionFits p) (ho : s.order = .little) (hsize : s.rest.length ≤ s.size)
  (hr : s.rest = Encode.record (Encode.recordOf p) ++ rest)
  (hp : s.pending = p.complex.flatMap childOf ++ others)
include h ho hsize hr hp

/-- The record of a function is read as the function, which takes its children. -/
theorem readRecord_recordOf :
    readRecord .current true s = .ok (some p) { s with rest := rest, pending := others } := by
  have hbody := body_recordOf p
  have hlength : (Encode.recordOf p).body.length = (bodyBytes p).length + 1 := by simp [hbody]
  have hbytes : s.rest = Encode.uleb (Encode.recordOf p).body.length ++
      ((Encode.recordOf p).body ++ rest) := by rw [hr, Encode.record, List.append_assoc]
  unfold readRecord
  rw [run_bind (takes_uleb _ s _ s.pending ho hbytes rfl), if_neg (by simp [hlength])]
  have havailable : Read.available (Encode.recordOf p).body.length
      { s with rest := (Encode.recordOf p).body ++ rest } =
      .ok true { s with rest := (Encode.recordOf p).body ++ rest } := by
    rw [Read.available, run_get, splitExactly_append]
    rfl
  have hflags := takes_lowByte (flagByte_lt p.flags) { s with rest := (Encode.recordOf p).body ++ rest }
    (bodyBytes p ++ rest) s.pending ho (by simp [hbody]) rfl
  have hread := takes_body h { s with rest := bodyBytes p ++ rest } rest others ho rfl hp
  rw [run_bind havailable, if_pos rfl, run_get, run_bind hflags, decodeFlags_flagByte]
  dsimp only
  rw [run_bind hread, run_get]
  -- the bytes of the record are those between the two offsets
  have hoffset : Source.offset { s with rest := rest, pending := others } -
      Source.offset { s with rest := (Encode.recordOf p).body ++ rest } =
      (Encode.recordOf p).body.length := by
    rw [hbytes] at hsize
    simp only [List.length_append] at hsize
    simp only [Source.offset, List.length_append]
    omega
  rw [if_neg (by simpa using hoffset)]
  rfl

/-- A record takes the children that wait for it. -/
theorem readRecords_recordOf (fuel : Nat) :
    readRecords .current true (fuel + 1) s =
      readRecords .current true fuel { s with rest := rest, pending := p :: others } := by
  have hmore : s.rest.isEmpty = false := by
    rw [hr, Encode.record, body_recordOf]
    simp
  rw [readRecords, run_bind (show Read.atEnd s = .ok _ s from rfl), if_neg (by simp [hmore]),
    run_bind (readRecord_recordOf h ho hsize hr hp)]
  rfl

end

/-! ## Whole dumps -/

/-- Some records, read one after the other, leave the functions `made` waiting. -/
structure Leaves (records : List Bytes) (made : List Prototype) : Prop where
  /-- no record is empty, so the bytes suffice as fuel -/
  length : records.length ≤ records.flatten.length
  run : ∀ (s : Source) (rest : Bytes) (fuel : Nat), s.order = .little → s.rest.length ≤ s.size →
    s.rest = records.flatten ++ rest →
    readRecords .current true (fuel + records.length) s =
      readRecords .current true fuel { s with rest := rest, pending := made ++ s.pending }

theorem Leaves.append {xs ys : List Bytes} (h : Leaves xs ps) (h' : Leaves ys qs) :
    Leaves (xs ++ ys) (qs ++ ps) := by
  refine ⟨?_, fun s rest fuel ho hsize hr => ?_⟩
  · have := h.length
    have := h'.length
    simp only [List.flatten_append, List.length_append]
    omega
  · rw [List.flatten_append, List.append_assoc] at hr
    have hlength : (ys.flatten ++ rest).length ≤ s.size := by
      rw [hr, List.length_append] at hsize
      omega
    have hfirst := h.run s (ys.flatten ++ rest) (fuel + ys.length) ho hsize hr
    have hsecond := h'.run { s with rest := ys.flatten ++ rest, pending := ps ++ s.pending } rest
      fuel ho hlength rfl
    rw [List.length_append, Nat.add_comm xs.length, ← Nat.add_assoc, hfirst, hsecond,
      List.append_assoc]

theorem leaves_children {cs : List (Complex Prototype)}
    (h : ∀ q, .child q ∈ cs → Leaves (Encode.records q) [q]) :
    Leaves (Encode.childRecords cs) (cs.flatMap childOf) := by
  induction cs with
  | nil =>
    refine ⟨Nat.le_refl _, fun s rest fuel _ _ hr => ?_⟩
    obtain rfl : s.rest = rest := hr
    rfl
  | cons c cs ih =>
    have hrest := ih fun q hq => h q (List.mem_cons_of_mem _ hq)
    cases c with
    | child q =>
      exact hrest.append (h q List.mem_cons_self)
    | text _ | table _ | number _ | pair _ _ => exact hrest

theorem InRange.leaves (h : InRange p) : Leaves (Encode.records p) [p] := by
  induction h with
  | @tree p hp _ ih =>
    have hrecords : Encode.records p = Encode.childRecords p.complex ++
        [Encode.record (Encode.recordOf p)] := by
      cases p
      rw [Encode.records]
    have hchildren := leaves_children ih
    rw [hrecords]
    refine ⟨?_, fun s rest fuel ho hsize hr => ?_⟩
    · have := hchildren.length
      have : 0 < (Encode.record (Encode.recordOf p)).length := by
        rw [Encode.record, body_recordOf, List.length_append, List.length_cons]
        omega
      simp only [List.flatten_append, List.flatten_singleton, List.length_append, List.length_singleton]
      omega
    · rw [List.flatten_append, List.flatten_singleton, List.append_assoc] at hr
      have hlength : (Encode.record (Encode.recordOf p) ++ rest).length ≤ s.size := by
        rw [hr, List.length_append] at hsize
        omega
      rw [List.length_append, Nat.add_comm _ [_].length, ← Nat.add_assoc,
        hchildren.run s _ _ ho hsize hr]
      exact readRecords_recordOf (s := { s with
        rest := Encode.record (Encode.recordOf p) ++ rest
        pending := p.complex.flatMap childOf ++ s.pending }) hp ho hlength rfl rfl fuel

theorem takes_header (origin : String) : Takes (readHeader origin) (Header.magic ++ ([2] ++ [2])) []
    (some ⟨2, { stripped := true }, origin, origin⟩) :=
  (takes_bytes Header.magic).bind ((takes_byte 2).bind ((takes_tag 2 (by decide)).finish (.pure _)))

theorem readRecords_end (ho : s.order = .little) (hr : s.rest = [0]) (fuel : Nat) :
    readRecords .current true (fuel + 1) s = .ok true { s with rest := [] } := by
  have hempty : readRecord .current true s = .ok none { s with rest := [] } := by
    rw [readRecord, run_bind (takes_tag 0 (by decide) s [] s.pending ho hr rfl)]
    rfl
  rw [readRecords, run_bind (show Read.atEnd s = .ok _ s from rfl), if_neg (by simp [hr]),
    run_bind hempty]
  rfl

/-- Reading an assembled dump gives the tree that it was made from. -/
theorem read_dump {p : Prototype} (h : InRange p) (origin : String) :
    Dump.read .current origin (Encode.dump p) =
      ⟨.ok (some (⟨2, { stripped := true }, origin, origin⟩, p)), []⟩ := by
  have hleaves := h.leaves
  have hbytes : Encode.dump p =
      (Header.magic ++ ([2] ++ [2])) ++ ((Encode.records p).flatten ++ [0]) := by
    simp [Encode.dump, Encode.file]
  have hheader := takes_header origin (.ofBytes (Encode.dump p)) _ [] rfl hbytes rfl
  have hsize : ((Encode.records p).flatten ++ [0]).length ≤ (Encode.dump p).length := by
    rw [hbytes]
    simp only [List.length_append]
    omega
  have hrecords : readRecords .current true ((Encode.records p).flatten ++ [0]).length
      { Source.ofBytes (Encode.dump p) with rest := (Encode.records p).flatten ++ [0] } =
      .ok true { Source.ofBytes (Encode.dump p) with rest := [], pending := [p] } := by
    obtain ⟨fuel, hfuel⟩ := Nat.exists_eq_add_of_le' hleaves.length
    rw [List.length_append, hfuel, List.length_singleton, Nat.add_right_comm,
      hleaves.run _ [0] (fuel + 1) rfl hsize rfl]
    exact readRecords_end rfl rfl fuel
  have hparts : readParts .current origin (.ofBytes (Encode.dump p)) =
      .ok (some ⟨2, { stripped := true }, origin, origin⟩)
        { Source.ofBytes (Encode.dump p) with rest := [], pending := [p] } := by
    rw [readParts, run_bind hheader]
    refine (run_bind rfl).trans ?_
    rw [run_get]
    exact (run_bind hrecords).trans rfl
  rw [Dump.read, EStateM.run, hparts]
  rfl

/-- A function that returns its argument. -/
def identityFunction : Prototype where
  flags := { hasJIT := false }
  argumentCount := 1
  framesize := 2
  firstLine := 0
  lineCount := 0
  instructions := [.functionHeader false 2, ⟨.ret1, Opcode.ret1.number, some 0, none, some 2⟩]
  upvalues := [0x8000]
  complex := []
  numbers := []
  debug := {}

/-- A function with constants of every kind, the second of which is a child. -/
def mixedFunction : Prototype where
  flags := { hasChildren := true, isVariadic := true, hasFFI := true }
  argumentCount := 0
  framesize := 255
  firstLine := 0
  lineCount := 0
  instructions := [.functionHeader true 255,
    ⟨.fnew, Opcode.fnew.number, some 0, none, some 1⟩,
    ⟨.tgets, Opcode.tgets.number, some 1, some 0, some 0⟩,
    ⟨.ist, Opcode.ist.number, none, none, some 1⟩,
    ⟨.jmp, Opcode.jmp.number, some 2, none, some (-3)⟩,
    ⟨.ret0, Opcode.ret0.number, some 0, none, some 1⟩]
  upvalues := []
  complex := [.text "né", .child identityFunction,
    .table ⟨[.nil, .bool true, .number (.int (-1))], [(.text "k", .number (.double 0x3ff8000000000000))]⟩,
    .pair (.double 0) (.double 0x4008000000000000)]
  numbers := [.int (-2 ^ 31), .double 0xfff8000000000001]
  debug := {}

theorem read_dump_mixed : InRange mixedFunction ∧
    Dump.read .current "mixed" (Encode.dump mixedFunction) =
      ⟨.ok (some (⟨2, { stripped := true }, "mixed", "mixed"⟩, mixedFunction)), []⟩ := by
  have h : InRange mixedFunction := by
    refine .tree (by decide) fun q hq => ?_
    obtain rfl : q = identityFunction := by simpa [mixedFunction] using hq
    exact .tree (by decide) fun r hr => by simp [identityFunction] at hr
  exact ⟨h, read_dump h "mixed"⟩

end LuaLift.Proofs
