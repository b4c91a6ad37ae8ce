import LuaLift.Proofs.Lexing
import LuaLift.Proofs.Sharing

/-! # Names and literals that read back

What is written for a text constant is one literal with that value, if the text has few line ends and
so stands in quotes. Long brackets take a text as it is, which fails for one that ends them early and
for one with line ends of another kind. A key stands without quotes if it is taken for a name; not
every such text is one. -/
namespace LuaLift.Proofs
open Lua Tree

/-! ## Literals -/

/-- Every kind of line end reads as `\n`. -/
def lineEnds : List Char → List Char
  | '\r' :: '\n' :: cs | '\n' :: '\r' :: cs => '\n' :: lineEnds cs
  | '\r' :: cs => '\n' :: lineEnds cs
  | c :: cs => c :: lineEnds cs
  | [] => []

/-- A text up to the first closing brackets, and what follows them. -/
def upToBrackets : List Char → Option (List Char × List Char)
  | [] => none
  | c :: cs =>
    if [']', ']'] <+: c :: cs then some ([], cs.tail)
    else (upToBrackets cs).map fun p => (c :: p.1, p.2)

def withoutLineEnd : List Char → List Char
  | '\n' :: cs => cs
  | cs => cs

/-- The value of the literal at the front of a text, and what follows. A line end right behind the
opening brackets does not count. -/
def literalValue : List Char → Option (List Char × List Char)
  | '"' :: cs => quotedRest cs
  | '[' :: '[' :: cs => (upToBrackets cs).map fun p => (withoutLineEnd (lineEnds p.1), p.2)
  | _ => none

theorem not_mem_lineEnds (cs : List Char) : '\r' ∉ lineEnds cs := by
  fun_induction lineEnds cs <;> simp_all [eq_comm]

theorem lineEnds_eq {cs : List Char} (h : '\r' ∉ cs) : lineEnds cs = cs := by
  fun_induction lineEnds cs <;> simp_all

theorem length_lineEnds_le (cs : List Char) : (lineEnds cs).length ≤ cs.length := by
  fun_induction lineEnds cs <;> simp <;> omega

theorem lineEnds_cons (cs : List Char) : ∃ ds, lineEnds ('\n' :: cs) = '\n' :: ds := by
  unfold lineEnds
  split <;> simp_all [eq_comm]

/-- A text is cut off if there are closing brackets in it, or at its end with the first one behind it. -/
theorem upToBrackets_append (s rest : List Char) : ∃ p, upToBrackets (s ++ ']' :: ']' :: rest) = some p ∧
    ([']', ']'] <:+: s ++ [']'] ∧ p.1.length < s.length ∨ ¬ [']', ']'] <:+: s ++ [']'] ∧ p = (s, rest)) := by
  induction s with
  | nil => exact ⟨([], rest), by simp [upToBrackets], by simp [List.infix_cons_iff]⟩
  | cons c s ih =>
    obtain ⟨p, hp, hcut⟩ := ih
    have hfront : [']', ']'] <+: c :: s ++ ']' :: ']' :: rest ↔ [']', ']'] <+: c :: s ++ [']'] := by
      cases s <;> simp
    simp only [List.cons_append, List.infix_cons_iff, upToBrackets, hp] at hfront ⊢
    by_cases hclose : [']', ']'] <+: c :: (s ++ [']'])
    · exact ⟨_, if_pos (hfront.mpr hclose), by simp [hclose]⟩
    · refine ⟨_, if_neg (mt hfront.mp hclose), ?_⟩
      simp only [hclose, false_or]
      rcases hcut with ⟨hclosed, hlen⟩ | ⟨hopen, rfl⟩
      · simp [*]
      · simp [*]

/-- A text constant is written as one literal. -/
theorem literalValue_textLiteral (s : String) :
    writeConstant .text (.text s) = put (textLiteral s) ∧
    ∀ rest, literalValue ((textLiteral s).toList ++ rest) = some (s.toList, rest) ↔
      s.toList.count '\n' ≤ 2 ∨ '\r' ∉ s.toList ∧ ¬ [']', ']'] <:+: s.toList ++ [']'] := by
  refine ⟨rfl, fun rest => ?_⟩
  unfold textLiteral
  split
  · rename_i hcount
    obtain ⟨p, hp, hcut⟩ := upToBrackets_append s.toList rest
    obtain ⟨value, hvalue⟩ := lineEnds_cons p.1
    have hread : literalValue ((bracketed s).toList ++ rest) = some (value, p.2) := by
      simp [bracketed, literalValue, upToBrackets, hp, hvalue, withoutLineEnd]
    rw [hread, or_iff_right (Nat.not_le.mpr hcount)]
    rcases hcut with ⟨hclosed, hcut⟩ | ⟨hopen, rfl⟩
    · have hlen := length_lineEnds_le ('\n' :: p.1)
      simp only [hvalue, List.length_cons] at hlen
      refine iff_of_false ?_ fun h => h.2 hclosed
      rintro ⟨⟩
      omega
    · constructor
      · rintro ⟨⟩
        have hends := not_mem_lineEnds ('\n' :: s.toList)
        rw [hvalue] at hends
        exact ⟨mt (List.mem_cons_of_mem _) hends, hopen⟩
      · rintro ⟨hr, -⟩
        rw [lineEnds_eq (by simpa using hr)] at hvalue
        cases hvalue
        rfl
  · rename_i hcount
    simp [quoted, literalValue, quotedRest_flatMap, Nat.not_lt.mp hcount]

/-- The literal of a text with three line ends is over at the brackets in the text. -/
theorem literal_ends_at_brackets :
    literalValue (textLiteral "a\nb\nc\n]]d").toList = some ("a\nb\nc\n".toList, "d]]".toList) := by
  decide +kernel

/-! ## Names -/

theorem isNameChar_iff {c : Char} : isNameChar c ↔ Text.isWordChar c ∧ c.toNat < 128 := by
  have hsmall : ∀ n < 128, Text.isWordChar (Char.ofNat n) = isNameChar (Char.ofNat n) := by decide +kernel
  by_cases hc : c.toNat < 128
  · have hword := hsmall c.toNat hc
    rw [Char.ofNat_toNat] at hword
    simp [hword, hc]
  · delta isNameChar Char.isAlphanum Char.isAlpha Char.isUpper Char.isLower
    simp only [Char.isDigit, Bool.or_eq_true, Bool.and_eq_true, decide_eq_true_eq, beq_iff_eq,
      UInt32.le_iff_toNat_le, hc, and_false,
      iff_false]
    rintro (((h | h) | h) | rfl)
    · exact hc (Nat.lt_of_le_of_lt h.2 (by decide))
    · exact hc (Nat.lt_of_le_of_lt h.2 (by decide))
    · exact hc (Nat.lt_of_le_of_lt h.2 (by decide))
    · exact hc (by decide)

/-- Not every text that is taken for a name is one: it can have letters and numerals of other scripts,
begin with a digit, have a line end behind it or be a reserved word. -/
theorem isVariableName_iff (x : String) : isVariableName x ↔ isName x ∧ (∀ c ∈ x.toList, c.toNat < 128) ∧
    (∀ c, x.toList.head? = some c → ¬ c.isDigit) ∧ x.toList.getLast? ≠ some '\n' ∧ x ∉ reserved := by
  have hstart : ∀ c, isNameStart c ↔ isNameChar c ∧ ¬ c.isDigit := fun c => by
    have := not_isNameStart_of_isDigit (c := c)
    simp [isNameStart, isNameChar, Char.isAlphanum] at this ⊢
    grind
  have hend : isNameChar '\n' = false := by decide
  unfold isVariableName isName
  cases hx : x.toList with
  | nil => simp
  | cons c cs =>
    by_cases hlast : (c :: cs).getLast? = some '\n'
    · have hmem := List.mem_of_getLast? hlast
      simp [hlast]
      grind
    · simp [hlast, hstart, isNameChar_iff]
      grind

/-- The places of a key that is a text: in a record, in an element or global variable, and as the name
of a method. It stands there without quotes only if it is taken for a name. -/
theorem bare_key_iff (inner : NodeId → Write Unit) {w : Work Draft} {key : NodeId} {x : String}
    (hkey : w.store.node key = .constant .text (.text x)) :
    (∀ value, writeTableRecord inner key value w =
      if isName x then (do put x; leaveOut key; put " = "; part inner value) w
      else (do put "["; part inner key; put "] = "; part inner value) w) ∧
    (∀ table, writeElement inner (.element table key) table key w =
      let wanted := (w.store.node table) matches .table ..
      if isBuiltin (w.store.node table) then (do
        Pass.require (isName x) "the key of a global variable is a name"
        leaveOut table; leaveOut key; put x) w
      else if !wanted && isName x then (do part inner table; put "."; put x; leaveOut key) w
      else (do parenthesized wanted (part inner table); put "["; part inner key; put "]") w) ∧
    (∀ table arguments, method? (.element table key) arguments w =
      .ok (if isName x ∧ arguments.head? = some table then some (table, w.store.node key) else none) w) ∧
    (isVariableName x ↔ isName x ∧ (∀ c ∈ x.toList, c.toNat < 128) ∧
      (∀ c, x.toList.head? = some c → ¬ c.isDigit) ∧ x.toList.getLast? ≠ some '\n' ∧ x ∉ reserved) := by
  have hnode : ∀ {α : Type} (f : Node → Write α), (Pass.node key >>= f) w = f (.constant .text (.text x)) w :=
    fun f => by rw [← hkey]; rfl
  refine ⟨fun value => ?_, fun table => ?_, fun table arguments => ?_, isVariableName_iff x⟩
  · rw [writeTableRecord, hnode]
    cases hx : isName x <;> simp [isNameKey, hx, keyText, plain]
  · have hglobal : ∀ f : Bool → Write Unit, (isGlobal (.element table key) >>= f) w =
        f (isBuiltin (w.store.node table)) w := fun _ => rfl
    have htable : ∀ f : Node → Write Unit, (Pass.node table >>= f) w = f (w.store.node table) w :=
      fun _ => rfl
    rw [writeElement, hnode, isNameKey, pure_bind, hglobal]
    split
    · rfl
    · rw [htable]
      generalize w.store.node table = n
      cases n <;> cases isName x <;> rfl
  · cases arguments with
    | nil => simp [method?, pure, EStateM.pure]
    | cons first rest =>
      rw [method?, hnode, isNameKey, pure_bind, hkey]
      by_cases hfirst : table = first <;> cases isName x <;> simp [hfirst, Ne.symm] <;> rfl

/-- A program that returns the field `end` of the global variable `t`. -/
def fieldNamedEnd : Store := numbered [
  .identifier { kind := .builtin, name := some "_env" },
  .constant .text (.text "t"),
  .element ⟨1⟩ ⟨2⟩,
  .constant .text (.text "end"),
  .element ⟨3⟩ ⟨4⟩,
  .list .expressions [⟨5⟩],
  .ret ⟨6⟩,
  .list .statements [⟨7⟩],
  .list .identifiers [],
  .function ⟨9⟩ ⟨8⟩ {}]

theorem end_is_bare_key : fieldNamedEnd.node ⟨4⟩ = .constant .text (.text "end") ∧
    writeElement (write 3) (.element ⟨3⟩ ⟨4⟩) ⟨3⟩ ⟨4⟩ ⟨fieldNamedEnd, {}⟩ =
      (do part (write 3) ⟨3⟩; put "."; put "end"; leaveOut ⟨4⟩) ⟨fieldNamedEnd, {}⟩ ∧
    ¬ isVariableName "end" := by
  have hkey : fieldNamedEnd.node ⟨4⟩ = .constant .text (.text "end") := rfl
  have hname : isName "end" = true := by decide +kernel
  obtain ⟨-, helement, -, hiff⟩ := bare_key_iff (w := ⟨fieldNamedEnd, {}⟩) (write 3) hkey
  refine ⟨hkey, (helement ⟨3⟩).trans ?_, fun h => (hiff.mp h).2.2.2.2 (by decide)⟩
  rw [hname]
  rfl

theorem reserved_word_stands_bare :
    isVariableName "end" = false ∧ ((text ⟨10⟩).run' fieldNamedEnd).1 = .ok ("return t.end\n", none) := by
  decide +kernel

end LuaLift.Proofs
