import LuaLift.Listing.Label
import LuaLift.Proofs.Accepting
import LuaLift.Proofs.Lifting

/-! # Names of slots

The search for the name of a slot goes back over the instructions to the last one that changes
the slot. It follows copies, which lead to ever lower addresses, so that it ends. It finds a
name or none in every function of an accepted dump whose operands name constants and upvalues
that are there, unless it needs the name of a table that was copied. -/
namespace LuaLift.Proofs
open Bytecode Dump Listing

/-! ## Functions that can be listed -/

/-- Operations that have a place in a listing. -/
def isListed : Opcode → Bool
  | .istype | .isnum | .tgetr | .tsetr | .unknw => false
  | _ => true

/-- An operand that can be shown: a constant is there and of its kind, an upvalue has a name. -/
def operandShown (p : Prototype) : Option OperandKind → Option Int → Bool
  | some .upvalue, some v => 0 ≤ v && v < p.debug.upvalues.length
  | some kind, some v => valueFits p v kind
  | _, _ => true

/-- A run of slots does not start behind its end. -/
def runsForward (i : Instruction) : Bool :=
  match i.op, i.a, i.b, i.cd with
  | .cat, _, some first, some last => first ≤ last + 1
  | .knil, some first, _, some last => first ≤ last + 1
  | _, _, _, _ => true

/-- Whether an instruction changes a slot. The slots behind operand A of a call or a loop count
up to the value of its last operand. -/
def changes (i : Instruction) (slot : Int) : Bool :=
  match i.shape.a, i.a with
  | some .dst, some a => a = slot
  | some .base, some a => a ≤ slot && (i.op = .knil || i.cd.any (slot ≤ ·))
  | _, _ => false

/-- The instruction before an address that changed a slot last. -/
def lastChange (p : Prototype) (address : Nat) (slot : Int) : Option Instruction :=
  ((p.instructions.take address).drop 1).reverse.find? (changes · slot)

/-- A field is read from a table that is in a variable or was not copied from another slot. -/
def fieldNamed (p : Prototype) (address : Nat) (i : Instruction) : Bool :=
  match i.op, i.b with
  | .tgets, some slot =>
    (p.debug.variableIn? address slot).isSome || (lastChange p address slot).all (·.op ≠ .mov)
  | _, _ => true

/-- The text of a table item has no line ends. -/
def fitsLine : TableItem → Bool
  | .text s => !s.toList.contains '\n'
  | _ => true

def tableFitsLines : Complex Prototype → Bool
  | .table t => t.array.all fitsLine && t.entries.all fun (key, value) => fitsLine key && fitsLine value
  | _ => true

/-- A function that can be listed. -/
@[mk_iff]
structure Listable (p : Prototype) : Prop where
  listed : ∀ i ∈ p.instructions.drop 1, isListed i.op = true
  a : ∀ i ∈ p.instructions.drop 1, operandShown p i.shape.a i.a = true
  b : ∀ i ∈ p.instructions.drop 1, operandShown p i.shape.b i.b = true
  cd : ∀ i ∈ p.instructions.drop 1, operandShown p i.shape.cd i.cd = true
  forward : ∀ i ∈ p.instructions.drop 1, runsForward i = true
  fields : ∀ k < p.instructions.length, ∀ i ∈ p.instructions[k]?, fieldNamed p k i = true
  tables : ∀ c ∈ p.complex, tableFitsLines c = true

instance (p : Prototype) : Decidable (Listable p) := decidable_of_iff _ (listable_iff p).symm

/-! ## Decoded instructions -/

/-- An instruction of a function that was read and can be listed. -/
structure Shown (p : Prototype) (i : Instruction) : Prop where
  meaning : i.meaning = some i.op
  listed : isListed i.op = true
  a : ∀ kind, i.shape.a = some kind → ∃ v, i.a = some v ∧ operandShown p (some kind) (some v) = true
  b : ∀ kind, i.shape.b = some kind → ∃ v, i.b = some v ∧ operandShown p (some kind) (some v) = true
  cd : ∀ kind, i.shape.cd = some kind →
    ∃ v, i.cd = some v ∧ operandShown p (some kind) (some v) = true
  forward : runsForward i = true

variable {p : Prototype} {i : Instruction}

theorem ofNumber?_of_decode {code : Nat} {op : Opcode} (h : Numbering.current.decode code = some op) :
    Opcode.ofNumber? code = some op := by
  have hall : Opcode.all = Numbering.current.table ++ [.unknw] := by decide
  unfold Opcode.ofNumber?
  rw [hall, List.getElem?_append_left (List.getElem?_eq_some_iff.mp h).1]
  exact h

theorem meaning_of_decodeWord {count word : Nat} (h : isListed (decodeWord .current count word).op = true) :
    (decodeWord .current count word).meaning = some (decodeWord .current count word).op := by
  cases hdecode : Numbering.current.decode (word % 256) with
  | none => simp [decodeWord, hdecode, isListed] at h
  | some op =>
    have hop : (decodeWord .current count word).op = op := by simp [decodeWord, hdecode]
    rw [hop]
    exact ofNumber?_of_decode hdecode

theorem exists_of_shape {kind? : Option OperandKind} {kind : OperandKind} {value? : Option Int}
    {value : OperandKind → Int} (hvalue : value? = kind?.map value) (hkind : kind? = some kind)
    (h : operandShown p kind? value? = true) :
    ∃ v, value? = some v ∧ operandShown p (some kind) (some v) = true := by
  subst hkind hvalue
  exact ⟨value kind, rfl, h⟩

theorem Listable.shown (h : Listable p) (hd : Decoded p) (hi : i ∈ p.instructions.drop 1) :
    Shown p i := by
  obtain ⟨word, rfl⟩ := hd.words i hi
  have hlisted := h.listed _ hi
  constructor
  · exact meaning_of_decodeWord hlisted
  · exact hlisted
  · intro kind hkind
    exact exists_of_shape rfl hkind (h.a _ hi)
  · intro kind hkind
    exact exists_of_shape rfl hkind (h.b _ hi)
  · intro kind hkind
    exact exists_of_shape rfl hkind (h.cd _ hi)
  · exact h.forward _ hi

/-! ## One step of the search -/

variable {v slot : Int} {before : List Instruction}

theorem present_some : present (some v) = .ok v := rfl

theorem element_of_at? {α : Type} {xs : List α} {x : α} (h : at? xs v = some x) : element xs v = .ok x := by
  simp [element, h]

theorem text_of_fits (h : valueFits p v .text = true) : ∃ s, at? p.complex v = some (.text s) := by
  simp only [valueFits, Bool.and_eq_true, decide_eq_true_eq] at h
  rw [at?_of_nonneg h.1]
  obtain ⟨-, h⟩ := h
  split at h
  · rename_i s hs
    exact ⟨s, hs⟩
  · cases h

theorem upvalueText_ok (h0 : 0 ≤ v) (h : v < p.debug.upvalues.length) : ∃ s, upvalueText p v = .ok s := by
  have hname : p.debug.upvalueName? v = some p.debug.upvalues[v.toNat] := by
    unfold DebugInfo.upvalueName?
    rw [at?_of_nonneg h0]
    exact List.getElem?_eq_getElem (by omega)
  exact ⟨_, by rw [upvalueText, hname]⟩

theorem variableText_ok {v : Variable} (h : v.name ≠ "") (slot : Int) :
    ∃ s, variableText v slot = .ok s := by
  unfold variableText
  split
  · rename_i hnil
    exact absurd (String.toList_eq_nil_iff.mp hnil) h
  · exact ⟨_, rfl⟩
  · exact ⟨_, rfl⟩

theorem mem_of_variableAt {address : Int} {vs : List Variable} {v : Variable}
    (h : variableAt address vs slot = some v) : v ∈ vs := by
  induction vs generalizing slot with
  | nil => cases h
  | cons w vs ih =>
    unfold variableAt at h
    split at h
    · cases h
    · split at h
      · exact List.mem_cons_of_mem _ (ih h)
      · split at h
        · cases h
          exact List.mem_cons_self
        · exact List.mem_cons_of_mem _ (ih h)

/-- What the search finds: a name, nothing, or the slot of which the slot is a copy. -/
inductive Found (before : List Instruction) (slot : Int) : Holding → Prop
  | unknown : Found before slot .unknown
  | text (s : String) : Found before slot (.text s)
  | constant (s : String) : Found before slot (.constant (.text s))
  | copy {address : Nat} {source : Int} :
    ((before.find? (changes · slot)).any (·.op = .mov)) = true → 1 ≤ address →
      address ≤ before.length → Found before slot (.copyOf address source)

theorem Found.skip {h : Holding} (hf : Found before slot h) (hi : changes i slot = false) :
    Found (i :: before) slot h := by
  cases hf with
  | unknown => exact .unknown
  | text s => exact .text s
  | constant s => exact .constant s
  | copy hmov hpos hle =>
    refine .copy ?_ hpos (Nat.le_succ_of_le hle)
    rw [List.find?_cons_of_neg (by simp [hi])]
    exact hmov

theorem Found.fieldText_ok {table : Holding} (key : String) (hf : Found before slot table)
    (h : (before.find? (changes · slot)).all (·.op ≠ .mov) = true) :
    ∃ s, fieldText table (.text key) = .ok s := by
  cases hf with
  | unknown => exact ⟨_, rfl⟩
  | text s => exact ⟨_, rfl⟩
  | constant s => exact ⟨_, rfl⟩
  | copy hmov _ _ =>
    cases hfind : before.find? (changes · slot) with
    | none => simp [hfind] at hmov
    | some i =>
      rw [hfind] at hmov h
      simp at hmov h
      exact absurd hmov h

theorem overwritesRange_eq (h : Shown p i) (ha : i.shape.a = some .base) (slot : Int) :
    overwritesRange i slot = .ok (changes i slot) := by
  obtain ⟨a, hia, -⟩ := h.a _ ha
  have hcd : ∃ kind, i.shape.cd = some kind := by
    revert ha
    unfold Instruction.shape
    cases i.op <;> simp [Opcode.shape]
  obtain ⟨kind, hkind⟩ := hcd
  obtain ⟨d, hid, -⟩ := h.cd _ hkind
  unfold overwritesRange changes
  rw [hia, ha, hid, h.meaning]
  simp only [present_some, bind, Except.bind, pure, Except.pure, Option.some.injEq, Option.any_some]
  split
  · rename_i hlt
    simp [hlt]
  · rename_i hle
    split
    · rename_i hknil
      simp [hknil, Int.not_lt.mp hle]
    · rename_i hknil
      simp [hknil, Int.not_lt.mp hle]

theorem changes_of_dst (ha : i.shape.a = some .dst) (hi : i.a = some slot) : changes i slot = true := by
  simp [changes, ha, hi]

theorem not_changes (hbase : i.shape.a ≠ some .base) (h : i.shape.a ≠ some .dst ∨ i.a ≠ some slot) :
    changes i slot = false := by
  unfold changes
  split
  · rename_i a ha hia
    simpa [ha, hia] using h
  · rename_i a ha _
    exact absurd ha hbase
  · rfl

theorem upvalue_of_shown (h : operandShown p (some .upvalue) (some v) = true) :
    ∃ s, upvalueText p v = .ok s := by
  simp only [operandShown, Bool.and_eq_true, decide_eq_true_eq] at h
  exact upvalueText_ok h.1 h.2

theorem textOperand_of_shown (hi : Shown p i) (h : i.shape.cd = some .text) :
    ∃ v s, i.cd = some v ∧ element p.complex v = .ok (.text s) := by
  obtain ⟨v, hv, hshown⟩ := hi.cd _ h
  obtain ⟨s, hs⟩ := text_of_fits hshown
  exact ⟨v, s, hv, element_of_at? hs⟩

/-- What an instruction leaves in the slot that it writes. The search of the table whose field
is read does not follow copies, and `hfield` says that it need not. -/
theorem holdingAfter_of_dst (hd : Decoded p) (hi : Shown p i) (ha : i.shape.a = some .dst)
    (hslot : i.a = some slot) (hfield : fieldNamed p (before.length + 1) i = true)
    (hbefore : ((p.instructions.take (before.length + 1)).drop 1).reverse = before)
    (ih : ∀ slot, ∃ h, holdingAfter p before slot = .ok h ∧ Found before slot h) :
    ∃ h, holdingAfter p (i :: before) slot = .ok h ∧ Found (i :: before) slot h := by
  unfold holdingAfter
  rw [if_neg (by simp [ha]), if_neg (by simp [ha, hslot]), hi.meaning]
  split
  · -- a copy
    rename_i hop
    obtain ⟨v, hv, -⟩ := hi.cd .var (by simp [Instruction.shape, Option.some.inj hop, Opcode.shape])
    refine ⟨.copyOf (before.length + 1) v, by rw [hv]; rfl, .copy ?_ (by omega) (by simp)⟩
    simp [changes_of_dst ha hslot, Option.some.inj hop]
  · -- a global variable
    rename_i hop
    obtain ⟨v, s, hv, hs⟩ :=
      textOperand_of_shown hi (by simp [Instruction.shape, Option.some.inj hop, Opcode.shape])
    refine ⟨.constant (.text s), ?_, .constant s⟩
    simp [hv, present_some, hs, bind, Except.bind, pure, Except.pure]
  · -- a field
    rename_i hop
    have hop := Option.some.inj hop
    obtain ⟨inner, hinner, -⟩ := hi.b .var (by simp [Instruction.shape, hop, Opcode.shape])
    obtain ⟨v, key, hv, hkey⟩ :=
      textOperand_of_shown hi (by simp [Instruction.shape, hop, Opcode.shape])
    rw [hinner, hv]
    simp only [present_some, bind, Except.bind, hkey]
    cases hvariable : p.debug.variableIn? (before.length + 1 : Nat) inner with
    | some x =>
      obtain ⟨t, ht⟩ := variableText_ok (hd.names x (mem_of_variableAt hvariable)) inner
      exact ⟨.text (t ++ "." ++ key), by simp [ht, fieldText, pure, Except.pure], .text _⟩
    | none =>
      obtain ⟨table, htable, hfound⟩ := ih inner
      have hall : (before.find? (changes · inner)).all (·.op ≠ .mov) = true := by
        unfold fieldNamed lastChange at hfield
        simp only [hop, hinner, hbefore, hvariable, Option.isSome_none, Bool.false_or] at hfield
        exact hfield
      obtain ⟨t, ht⟩ := hfound.fieldText_ok key hall
      exact ⟨.text t, by simp [htable, ht, pure, Except.pure], .text t⟩
  · -- an upvalue
    rename_i hop
    obtain ⟨v, hv, hshown⟩ :=
      hi.cd .upvalue (by simp [Instruction.shape, Option.some.inj hop, Opcode.shape])
    obtain ⟨s, hs⟩ := upvalue_of_shown hshown
    refine ⟨.text s, ?_, .text s⟩
    simp [hv, present_some, hs, bind, Except.bind, pure, Except.pure]
  · exact ⟨_, rfl, .unknown⟩

/-- The search ends in one of the ways of `Found`, whatever stands behind the instructions. -/
theorem holdingAfter_ok (hp : Listable p) (hd : Decoded p) {after : List Instruction}
    (hcode : p.instructions.drop 1 = before.reverse ++ after) (slot : Int) :
    ∃ h, holdingAfter p before slot = .ok h ∧ Found before slot h := by
  induction before generalizing slot after with
  | nil => exact ⟨_, rfl, .unknown⟩
  | cons i before ih =>
    have hrest : p.instructions.drop 1 = before.reverse ++ i :: after := by simpa using hcode
    have hi : Shown p i := hp.shown hd (by simp [hrest])
    by_cases hbase : i.shape.a = some .base
    · unfold holdingAfter
      rw [if_pos hbase, overwritesRange_eq hi hbase]
      cases hchanges : changes i slot with
      | true => exact ⟨_, rfl, .unknown⟩
      | false =>
        obtain ⟨h, hh, hf⟩ := ih hrest slot
        exact ⟨h, hh, hf.skip hchanges⟩
    · by_cases hdst : i.shape.a ≠ some .dst ∨ i.a ≠ some slot
      · unfold holdingAfter
        rw [if_neg hbase, if_pos hdst]
        obtain ⟨h, hh, hf⟩ := ih hrest slot
        exact ⟨h, hh, hf.skip (not_changes hbase hdst)⟩
      · obtain ⟨ha, hslot⟩ : i.shape.a = some .dst ∧ i.a = some slot := by simpa using hdst
        have hlength : before.length + 1 < p.instructions.length := by
          have := congrArg List.length hrest
          simp at this
          omega
        have hat : p.instructions[before.length + 1]? = some i := by
          have : (p.instructions.drop 1)[before.length]? = some i := by simp [hrest]
          simpa [Nat.add_comm] using this
        have hbefore : ((p.instructions.take (before.length + 1)).drop 1).reverse = before := by
          rw [List.drop_take, hrest]
          simp
        exact holdingAfter_of_dst hd hi ha hslot (hp.fields _ hlength i hat) hbefore (ih hrest)

/-! ## The whole search -/

/-- The name that the search finds for a slot at an address. -/
inductive HasName (p : Prototype) : Nat → Int → Option String → Prop
  | unknown {address : Nat} {slot : Int} :
    holding p address slot = .ok .unknown → HasName p address slot none
  | text {address : Nat} {slot : Int} {s : String} :
    holding p address slot = .ok (.text s) → HasName p address slot (some s)
  | constant {address : Nat} {slot : Int} {s : String} :
    holding p address slot = .ok (.constant (.text s)) → HasName p address slot (some s)
  | copy {address address' : Nat} {slot slot' : Int} {name : Option String} :
    holding p address slot = .ok (.copyOf address' slot') → address' < address →
      HasName p address' slot' name → HasName p address slot name

theorem HasName.nameFrom {address fuel : Nat} {name : Option String} (h : HasName p address slot name)
    (hf : address < fuel) : nameFrom p fuel address slot = .ok (name.map .text) := by
  induction h generalizing fuel with
  | unknown hh =>
    obtain ⟨fuel, rfl⟩ := Nat.exists_eq_add_of_lt hf
    simp [Listing.nameFrom, hh, bind, Except.bind, pure, Except.pure]
  | text hh =>
    obtain ⟨fuel, rfl⟩ := Nat.exists_eq_add_of_lt hf
    simp [Listing.nameFrom, hh, bind, Except.bind, pure, Except.pure]
  | constant hh =>
    obtain ⟨fuel, rfl⟩ := Nat.exists_eq_add_of_lt hf
    simp [Listing.nameFrom, hh, bind, Except.bind, pure, Except.pure]
  | copy hh hlt _ ih =>
    obtain ⟨fuel, rfl⟩ := Nat.exists_eq_add_of_lt hf
    simp only [Listing.nameFrom, hh, bind, Except.bind]
    exact ih (by omega)

theorem exists_hasName (hp : Listable p) (hd : Decoded p) (address : Nat) (slot : Int) :
    ∃ name, HasName p address slot name := by
  induction address using Nat.strongRecOn generalizing slot with
  | ind address ih =>
    cases hvariable : p.debug.variableIn? address slot with
    | some v =>
      obtain ⟨s, hs⟩ := variableText_ok (hd.names v (mem_of_variableAt hvariable)) slot
      refine ⟨some s, .text ?_⟩
      simp [holding, hvariable, hs, bind, Except.bind, pure, Except.pure]
    | none =>
      have hcode : p.instructions.drop 1 = ((p.instructions.take address).drop 1).reverse.reverse ++
          (p.instructions.drop 1).drop (address - 1) := by
        rw [List.reverse_reverse, List.drop_take, List.take_append_drop]
      obtain ⟨h, hh, hfound⟩ := holdingAfter_ok hp hd hcode slot
      have hholding : holding p address slot = .ok h := by
        unfold holding
        rw [hvariable]
        exact hh
      cases hfound with
      | unknown => exact ⟨none, .unknown hholding⟩
      | text s => exact ⟨some s, .text hholding⟩
      | constant s => exact ⟨some s, .constant hholding⟩
      | @copy address' source _ hpos hle =>
        have hlt : address' < address := by
          simp at hle
          omega
        obtain ⟨name, hname⟩ := ih address' hlt source
        exact ⟨name, .copy hholding hlt hname⟩

theorem slotLabel_ok (hp : Listable p) (hd : Decoded p) (address : Nat) (slot : Int) :
    ∃ s, slotLabel p address slot = .ok (.text s) := by
  obtain ⟨name, hname⟩ := exists_hasName hp hd address slot
  have hfrom := hname.nameFrom (Nat.lt_succ_self address)
  unfold slotLabel
  rw [hfrom]
  cases name with
  | none => exact ⟨_, rfl⟩
  | some s => exact ⟨_, rfl⟩

end LuaLift.Proofs
