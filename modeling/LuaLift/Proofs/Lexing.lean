import LuaLift.Proofs.Expression

/-! # Words of a text

`lex` cuts a text into tokens. It knows the tokens that expressions are made of and
refuses everything else, comments included. A text of an expression is cut into the
tokens of the expression, if its names and literals can be read at all (`printable`). -/
namespace LuaLift.Proofs
open Tree Lua

inductive Token where
  | name (x : String)
  | number (n : Nat)
  | text (s : String)
  | operator (op : BinaryOp)
  | not
  | length
  | openParen
  | closeParen
  | openKey
  | closeKey
  | dot
  | comma

/-! ## Scanning -/

def isNameStart (c : Char) : Bool := c.isAlpha || c == '_'

def isNameChar (c : Char) : Bool := c.isAlphanum || c == '_'

/-- The words that are no names. -/
def reserved : List String :=
  ["and", "break", "do", "else", "elseif", "end", "false", "for", "function", "if", "in", "local",
   "nil", "not", "or", "repeat", "return", "then", "true", "until", "while"]

def wordToken (w : String) : Option Token :=
  if w = "and" then some (.operator .and)
  else if w = "or" then some (.operator .or)
  else if w = "not" then some .not
  else if w ∈ reserved then none
  else some (.name w)

/-- The character that an escape in a quoted text stands for. -/
def unescape (c : Char) : Option Char :=
  if c = 'n' then some '\n'
  else if c = 't' then some '\t'
  else if c = 'r' then some '\r'
  else if c = '\\' ∨ c = '"' then some c
  else none

/-- A quoted text up to the closing quote, and what follows. -/
def quotedRest : List Char → Option (List Char × List Char)
  | [] => none
  | c :: rest =>
    if c = '"' then some ([], rest)
    else if c = '\\' then
      match rest with
      | [] => none
      | d :: rest =>
        match unescape d with
        | some x => (quotedRest rest).map fun p => (x :: p.1, p.2)
        | none => none
    else if c = '\n' ∨ c = '\r' then none
    else (quotedRest rest).map fun p => (c :: p.1, p.2)

/-- A text in long brackets up to the closing ones, and what follows. -/
def longRest : List Char → Option (List Char × List Char)
  | [] => none
  | c :: rest =>
    if c = ']' ∧ rest.head? = some ']' then some ([], rest.tail)
    else if c = '\r' then none
    else (longRest rest).map fun p => (c :: p.1, p.2)

/-- The tokens of one character. -/
def signToken : Char → Option Token
  | '+' => some (.operator .add)
  | '*' => some (.operator .multiply)
  | '/' => some (.operator .divide)
  | '%' => some (.operator .mod)
  | '^' => some (.operator .pow)
  | '#' => some .length
  | '(' => some .openParen
  | ')' => some .closeParen
  | ']' => some .closeKey
  | ',' => some .comma
  | _ => none

/-- The token at the front of a text, none for a blank, and the rest of the text. -/
def scan : List Char → Option (Option Token × List Char)
  | [] => none
  | c :: rest =>
    if c = ' ' ∨ c = '\n' then some (none, rest)
    else if isNameStart c then
      (wordToken (String.ofList ((c :: rest).takeWhile isNameChar))).map fun t =>
        (some t, (c :: rest).dropWhile isNameChar)
    else if c.isDigit then
      let digits := (c :: rest).takeWhile fun c => isNameChar c || c == '.'
      if digits.all Char.isDigit then
        some (some (.number (Nat.ofDigitChars 10 digits 0)),
          (c :: rest).dropWhile fun c => isNameChar c || c == '.')
      else none
    else if c = '"' then
      (quotedRest rest).map fun p => (some (.text (String.ofList p.1)), p.2)
    else if c = '[' then
      if rest.head? = some '[' then
        (longRest (if rest.tail.head? = some '\n' then rest.tail.tail else rest.tail)).map fun p =>
          (some (.text (String.ofList p.1)), p.2)
      else some (some .openKey, rest)
    else if c = '.' then
      if rest.head? = some '.' then
        if rest.tail.head? = some '.' then none else some (some (.operator .concat), rest.tail)
      else some (some .dot, rest)
    else if c = '-' then
      if rest.head? = some '-' then none else some (some (.operator .subtract), rest)
    else if c = '<' then
      if rest.head? = some '=' then some (some (.operator .lessEqual), rest.tail)
      else some (some (.operator .less), rest)
    else if c = '>' then
      if rest.head? = some '=' then some (some (.operator .greaterEqual), rest.tail)
      else some (some (.operator .greater), rest)
    else if c = '~' then
      if rest.head? = some '=' then some (some (.operator .notEqual), rest.tail) else none
    else if c = '=' then
      if rest.head? = some '=' then some (some (.operator .equal), rest.tail) else none
    else (signToken c).map fun t => (some t, rest)

/-- The tokens of a text, of which at most as many characters as `fuel` are left. -/
def lexFrom : Nat → List Char → Option (List Token)
  | _, [] => some []
  | 0, _ :: _ => none
  | fuel + 1, c :: cs =>
    match scan (c :: cs) with
    | some (t, rest) => (lexFrom fuel rest).map (t.toList ++ ·)
    | none => none

def lex (cs : List Char) : Option (List Token) := lexFrom cs.length cs

variable {op : BinaryOp} {c : Char} {e : Expr} {p w : List Char} {x : String}

section
variable {cs rest : List Char} {ts : List Token}

theorem lexFrom_mono : ∀ {n m : Nat} {cs : List Char} {ts : List Token},
    lexFrom n cs = some ts → n ≤ m → lexFrom m cs = some ts
  | _, _, [], _, h, _ => by
    unfold lexFrom at h ⊢
    exact h
  | 0, _, _ :: _, _, h, _ => by cases h
  | n + 1, 0, _ :: _, _, _, hm => by omega
  | n + 1, m + 1, c :: cs, ts, h, hm => by
    unfold lexFrom at h ⊢
    split at h
    · obtain ⟨us, hus, rfl⟩ := Option.map_eq_some_iff.mp h
      rw [lexFrom_mono hus (by omega)]; rfl
    · cases h

theorem lex_scan {t : Option Token} (hp : p ≠ []) (hs : scan (p ++ rest) = some (t, rest))
    (h : lex rest = some ts) : lex (p ++ rest) = some (t.toList ++ ts) := by
  obtain ⟨c, p, rfl⟩ := List.exists_cons_of_ne_nil hp
  rw [lex, List.cons_append, List.length_cons, lexFrom, ← List.cons_append, hs]
  dsimp only
  rw [lexFrom_mono h (by simp)]; rfl

theorem lex_blank (h : lex rest = some ts) : lex (' ' :: rest) = some ts :=
  lex_scan (p := [' ']) nofun rfl h

theorem lex_spaced {t : Token} (hp : p ≠ []) (hs : scan (p ++ ' ' :: rest) = some (some t, ' ' :: rest))
    (h : lex rest = some ts) : lex (' ' :: p ++ ' ' :: rest) = some (t :: ts) :=
  lex_blank (lex_scan hp hs (lex_blank h))

theorem lex_binarySign (hx : binarySign op = some x) (h : lex rest = some ts) :
    lex (x.toList ++ rest) = some (.operator op :: ts) := by
  cases op <;> cases hx
  case or => exact lex_spaced (p := ['o', 'r']) nofun rfl h
  case and => exact lex_spaced (p := ['a', 'n', 'd']) nofun rfl h
  case less => exact lex_spaced (p := ['<']) nofun rfl h
  case greater => exact lex_spaced (p := ['>']) nofun rfl h
  case lessEqual => exact lex_spaced (p := ['<', '=']) nofun rfl h
  case greaterEqual => exact lex_spaced (p := ['>', '=']) nofun rfl h
  case notEqual => exact lex_spaced (p := ['~', '=']) nofun rfl h
  case equal => exact lex_spaced (p := ['=', '=']) nofun rfl h
  case concat => exact lex_spaced (p := ['.', '.']) nofun rfl h
  case add => exact lex_spaced (p := ['+']) nofun rfl h
  case subtract => exact lex_spaced (p := ['-']) nofun rfl h
  case multiply => exact lex_scan (p := ['*']) nofun rfl h
  case divide => exact lex_scan (p := ['/']) nofun rfl h
  case mod => exact lex_scan (p := ['%']) nofun rfl h
  case pow => exact lex_scan (p := ['^']) nofun rfl h

/-! ## Names and literals -/

/-- A name as the language has it. -/
def isVariableName (x : String) : Bool :=
  match x.toList with
  | [] => false
  | c :: cs => isNameStart c && cs.all isNameChar && !reserved.contains x

/-- The text does not begin with a character of a class. -/
def Stops (p : Char → Bool) (rest : List Char) : Prop := ∀ c, rest.head? = some c → p c = false

theorem Stops.takeWhile {p : Char → Bool} (hw : ∀ c ∈ w, p c = true) (h : Stops p rest) :
    (w ++ rest).takeWhile p = w := by
  rw [List.takeWhile_append_of_pos hw]
  cases rest with
  | nil => simp
  | cons c rest => simp [h c rfl]

theorem Stops.dropWhile {p : Char → Bool} (hw : ∀ c ∈ w, p c = true) (h : Stops p rest) :
    (w ++ rest).dropWhile p = rest := by
  rw [List.dropWhile_append_of_pos hw]
  cases rest with
  | nil => rfl
  | cons c rest => simp [h c rfl]

theorem isNameChar_of_isNameStart (h : isNameStart c) : isNameChar c := by
  simp only [isNameStart, isNameChar, Char.isAlphanum, Bool.or_eq_true] at h ⊢
  rcases h with h | h
  · exact .inl (.inl h)
  · exact .inr h

theorem not_isNameStart_of_isDigit (h : c.isDigit) : ¬ isNameStart c := by
  delta isNameStart Char.isAlpha Char.isUpper Char.isLower
  simp only [Char.isDigit, Bool.and_eq_true, decide_eq_true_eq, Bool.or_eq_true, beq_iff_eq,
    UInt32.le_iff_toNat_le, ge_iff_le] at h ⊢
  rintro ((hu | hl) | rfl)
  · exact absurd (Nat.le_trans hu.1 h.2) (by decide)
  · exact absurd (Nat.le_trans hl.1 h.2) (by decide)
  · exact absurd h.2 (by decide)

theorem lex_name (hx : isVariableName x) (hs : Stops isNameChar rest) (h : lex rest = some ts) :
    lex (x.toList ++ rest) = some (.name x :: ts) := by
  unfold isVariableName at hx
  split at hx
  · cases hx
  · rename_i c cs hcs
    simp only [Bool.and_eq_true, List.all_eq_true, Bool.not_eq_true', List.contains_eq_mem,
      decide_eq_false_iff_not] at hx
    obtain ⟨⟨hc, hall⟩, hres⟩ := hx
    have hw : ∀ d ∈ x.toList, isNameChar d = true := by
      rw [hcs]
      intro d hd
      rcases List.mem_cons.mp hd with rfl | hd
      · exact isNameChar_of_isNameStart hc
      · exact hall d hd
    have hblank : ¬ (c = ' ' ∨ c = '\n') := by
      rintro (rfl | rfl) <;> cases hc
    have hword : wordToken x = some (.name x) := by
      unfold wordToken
      rw [if_neg, if_neg, if_neg, if_neg hres] <;> rintro rfl <;> exact hres (by decide)
    have hne : x.toList ≠ [] := by rw [hcs]; nofun
    refine lex_scan (t := some (.name x)) hne ?_ h
    rw [hcs, List.cons_append, scan, if_neg hblank, if_pos hc, ← List.cons_append, ← hcs,
      hs.takeWhile hw, hs.dropWhile hw, String.ofList_toList, hword]
    rfl

theorem lex_nat {n : Nat} (hs : Stops (fun c => isNameChar c || c == '.') rest)
    (h : lex rest = some ts) : lex ((toString n).toList ++ rest) = some (.number n :: ts) := by
  rw [Nat.toString_eq_ofList_toDigits, String.toList_ofList]
  have hdigit : ∀ c ∈ Nat.toDigits 10 n, c.isDigit = true := fun c hc =>
    Nat.isDigit_of_mem_toDigits (b := 10) (by decide) (by decide) hc
  have hw : ∀ c ∈ Nat.toDigits 10 n, (isNameChar c || c == '.') = true := fun c hc => by
    simp [isNameChar, Char.isAlphanum, hdigit c hc]
  obtain ⟨c, cs, hcs⟩ := List.exists_cons_of_ne_nil (Nat.toDigits_ne_nil (n := n) (b := 10))
  have hc : c.isDigit = true := hdigit c (by rw [hcs]; exact List.mem_cons_self)
  refine lex_scan (t := some (.number n)) Nat.toDigits_ne_nil ?_ h
  rw [hcs, List.cons_append, scan, if_neg, if_neg (not_isNameStart_of_isDigit hc), if_pos hc,
    ← List.cons_append, ← hcs]
  · rw [hs.takeWhile hw, hs.dropWhile hw, if_pos (by simpa using hdigit), Nat.ofDigitChars_ten_toDigits]
  · rintro (rfl | rfl) <;> cases hc

theorem quotedRest_escape (c : Char) (tail : List Char) :
    quotedRest (escape c ++ tail) = (quotedRest tail).map fun p => (c :: p.1, p.2) := by
  unfold escape
  split
  · subst c; simp [quotedRest, unescape]
  split
  · subst c; simp [quotedRest, unescape]
  split
  · subst c; simp [quotedRest, unescape]
  split
  · subst c; simp [quotedRest, unescape]
  split
  · subst c; simp [quotedRest, unescape]
  · rw [List.singleton_append, quotedRest.eq_def]
    simp [*]

theorem quotedRest_flatMap (s : List Char) :
    quotedRest (s.flatMap escape ++ '"' :: rest) = some (s, rest) := by
  induction s with
  | nil => rw [List.flatMap_nil, List.nil_append, quotedRest.eq_def]; simp
  | cons c s ih => rw [List.flatMap_cons, List.append_assoc, quotedRest_escape, ih]; rfl

/-- A text that can stand in long brackets: no closing brackets and no carriage return. -/
def isLongText : List Char → Bool
  | [] => true
  | c :: rest => c != '\r' && !(c == ']' && (rest.isEmpty || rest.head? == some ']')) && isLongText rest

theorem longRest_append {s : List Char} (hs : isLongText s) :
    longRest (s ++ ']' :: ']' :: rest) = some (s, rest) := by
  induction s with
  | nil => rfl
  | cons c s ih =>
    simp only [isLongText, Bool.and_eq_true, bne_iff_ne, Bool.not_eq_true', Bool.and_eq_false_iff,
      beq_eq_false_iff_ne, Bool.or_eq_false_iff] at hs
    obtain ⟨⟨hr, hc⟩, hs⟩ := hs
    have hclose : ¬ (c = ']' ∧ (s ++ ']' :: ']' :: rest).head? = some ']') := by
      rintro ⟨rfl, hhead⟩
      rcases hc with hc | ⟨hempty, hnext⟩
      · exact hc rfl
      · cases s with
        | nil => cases hempty
        | cons d s => exact hnext hhead
    rw [List.cons_append, longRest, if_neg hclose, if_neg hr, ih hs]
    rfl

/-- The texts whose literal can be read. -/
def isReadable (s : String) : Bool := s.toList.count '\n' ≤ 2 || isLongText s.toList

theorem lex_text {s : String} (hs : isReadable s) (h : lex rest = some ts) :
    lex ((textLiteral s).toList ++ rest) = some (.text s :: ts) := by
  unfold textLiteral
  split
  · rename_i hcount
    have hlong : isLongText s.toList = true := by
      simpa [isReadable, Nat.not_le.mpr hcount] using hs
    have hchars : (bracketed s).toList ++ rest =
        '[' :: '[' :: '\n' :: (s.toList ++ ']' :: ']' :: rest) := by
      simp [bracketed]
    have hne : (bracketed s).toList ≠ [] := by simp [bracketed]
    refine lex_scan (t := some (.text s)) hne ?_ h
    rw [hchars]
    change (longRest (s.toList ++ ']' :: ']' :: rest)).map _ = _
    rw [longRest_append hlong, Option.map_some, String.ofList_toList]
  · have hchars : (quoted s).toList ++ rest = '"' :: (s.toList.flatMap escape ++ '"' :: rest) := by
      simp [quoted]
    have hne : (quoted s).toList ≠ [] := by simp [quoted]
    refine lex_scan (t := some (.text s)) hne ?_ h
    rw [hchars]
    change (quotedRest (s.toList.flatMap escape ++ '"' :: rest)).map _ = _
    rw [quotedRest_flatMap, Option.map_some, String.ofList_toList]

end

/-! ## Tokens of an expression -/

namespace Expr

/-- Expressions that an index or a call can follow. -/
def isPrefixed : Expr → Bool
  | name _ | element .. | call .. => true
  | _ => false

def unaryToken : UnaryOp → Token
  | .not => .not
  | .length => .length
  | _ => .operator .subtract

def encloseTokens (wanted : Bool) (ts : List Token) : List Token :=
  if wanted then .openParen :: ts ++ [.closeParen] else ts

mutual

def tokens : Expr → List Token
  | name x => [.name x]
  | number k => if k < 0 then [.operator .subtract, .number k.natAbs] else [.number k.natAbs]
  | text s => [.text s]
  | unary op e => unaryToken op :: encloseTokens (enclosedInUnary op e) (tokens e)
  | binary op l r => encloseTokens (enclosedIn op l) (tokens l) ++ .operator op ::
      encloseTokens (enclosedIn op r) (tokens r)
  | element t k => tokens t ++
      match bareKey? k with
      | some x => [.dot, .name x]
      | none => .openKey :: tokens k ++ [.closeKey]
  | call f as => tokens f ++ .openParen :: tokensOfList as ++ [.closeParen]

def tokensOfList : List Expr → List Token
  | [] => []
  | [e] => tokens e
  | e :: es => tokens e ++ .comma :: tokensOfList es

end

/-- The text of an expression begins with another character than `c`. -/
def avoids (c : Char) (e : Expr) : Bool := e.chars.head?.any (· != c)

mutual

/-- The expressions whose text can be cut into tokens again, and in which an index or a call
follows what it may follow: names are names of the language, texts can be read, no minus
sign stands before another, and no long bracket stands right after the bracket of an index. -/
def printable : Expr → Bool
  | name x => isVariableName x
  | number _ => true
  | text s => isReadable s
  | unary op e => isUnarySign op && printable e &&
      (op != .minus || enclosedInUnary op e || avoids '-' e)
  | binary op l r => (binarySign op).isSome && printable l && printable r
  | element t k => isPrefixed t && printable t &&
      match bareKey? k with
      | some x => isVariableName x
      | none => printable k && avoids '[' k
  | call f as => isPrefixed f && printable f && printableList as

def printableList : List Expr → Bool
  | [] => true
  | e :: es => printable e && printableList es

end

/-- What follows an expression does not change its last token. -/
def Follows (e : Expr) (rest : List Char) : Prop :=
  ∀ c, rest.head? = some c → isNameChar c = false ∧ (c = '.' → e.isPrefixed)

end Expr

section
open Expr
variable {rest : List Char} {ts : List Token}

theorem lex_minus (hm : rest.head? ≠ some '-') (h : lex rest = some ts) :
    lex ('-' :: rest) = some (.operator .subtract :: ts) := by
  refine lex_scan (p := ['-']) (t := some (.operator .subtract)) nofun ?_ h
  change (if rest.head? = some '-' then none else _) = _
  rw [if_neg hm]; rfl

theorem lex_number {k : Int} (hs : Stops (fun c => isNameChar c || c == '.') rest)
    (h : lex rest = some ts) :
    lex ((toString k).toList ++ rest) = some ((Expr.number k).tokens ++ ts) := by
  cases k with
  | ofNat n => exact lex_nat hs h
  | negSucc n =>
    have hchars : (toString (Int.negSucc n)).toList ++ rest =
        '-' :: ((toString (n + 1)).toList ++ rest) := by
      change ("-" ++ toString (n + 1)).toList ++ rest = _
      rw [String.toList_append, List.append_assoc]; rfl
    have hhead : ((toString (n + 1)).toList ++ rest).head? ≠ some '-' := by
      rw [Nat.toString_eq_ofList_toDigits, String.toList_ofList]
      intro hd
      obtain ⟨c, cs, hcs⟩ := List.exists_cons_of_ne_nil (Nat.toDigits_ne_nil (n := n + 1) (b := 10))
      have hc := Nat.isDigit_of_mem_toDigits (n := n + 1) (b := 10) (c := c) (by decide) (by decide)
        (by rw [hcs]; exact List.mem_cons_self)
      rw [hcs] at hd; cases hd
      cases hc
    have htokens : (Expr.number (Int.negSucc n)).tokens = [.operator .subtract, .number (n + 1)] := by
      rw [tokens, if_pos (Int.negSucc_lt_zero n)]; rfl
    rw [hchars, htokens]
    exact lex_minus hhead (lex_nat hs h)

theorem lex_unarySign {op : UnaryOp} (hop : isUnarySign op)
    (hm : op = .minus → rest.head? ≠ some '-') (h : lex rest = some ts) :
    lex ((unarySign op).toList ++ rest) = some (unaryToken op :: ts) := by
  match op, hop with
  | .not, _ => exact lex_scan (p := ['n', 'o', 't']) (t := some .not) nofun rfl (lex_blank h)
  | .length, _ => exact lex_scan (p := ['#']) (t := some .length) nofun rfl h
  | .minus, _ => exact lex_minus (hm rfl) h

theorem lex_comma (h : lex rest = some ts) : lex (',' :: ' ' :: rest) = some (.comma :: ts) :=
  lex_scan (p := [',']) (t := some .comma) nofun rfl (lex_blank h)

theorem lex_openParen (h : lex rest = some ts) : lex ('(' :: rest) = some (.openParen :: ts) :=
  lex_scan (p := ['(']) (t := some .openParen) nofun rfl h

theorem lex_closeParen (h : lex rest = some ts) : lex (')' :: rest) = some (.closeParen :: ts) :=
  lex_scan (p := [')']) (t := some .closeParen) nofun rfl h

theorem lex_closeKey (h : lex rest = some ts) : lex (']' :: rest) = some (.closeKey :: ts) :=
  lex_scan (p := [']']) (t := some .closeKey) nofun rfl h

theorem lex_openKey (hk : rest.head? ≠ some '[') (h : lex rest = some ts) :
    lex ('[' :: rest) = some (.openKey :: ts) := by
  refine lex_scan (p := ['[']) (t := some .openKey) nofun ?_ h
  change (if rest.head? = some '[' then _ else _) = _
  rw [if_neg hk]; rfl

theorem lex_dot (hd : rest.head? ≠ some '.') (h : lex rest = some ts) :
    lex ('.' :: rest) = some (.dot :: ts) := by
  refine lex_scan (p := ['.']) (t := some .dot) nofun ?_ h
  change (if rest.head? = some '.' then _ else _) = _
  rw [if_neg hd]; rfl

theorem avoids.head (h : avoids c e) (rest : List Char) : (e.chars ++ rest).head? ≠ some c := by
  unfold avoids at h
  cases he : e.chars with
  | nil => rw [he] at h; cases h
  | cons d ds =>
    rw [he] at h
    rintro hd
    cases hd
    simp at h

theorem lex_enclose (wanted : Bool) (hf : ¬ wanted → e.Follows rest)
    (he : ∀ {rest ts}, lex rest = some ts → e.Follows rest → lex (e.chars ++ rest) = some (e.tokens ++ ts))
    (h : lex rest = some ts) :
    lex ((enclose wanted e.pieces).flatMap String.toList ++ rest) =
      some (encloseTokens wanted e.tokens ++ ts) := by
  cases wanted with
  | true =>
    have := lex_openParen (he (lex_closeParen h) fun c hc => by cases hc; exact ⟨rfl, nofun⟩)
    simpa [enclose, encloseTokens, Expr.chars] using this
  | false => exact he h (hf nofun)

theorem head_sign (hx : binarySign op = some x) :
    ∃ c, (∀ rest, (x.toList ++ rest).head? = some c) ∧ isNameChar c = false ∧ c ≠ '.' := by
  cases op <;> cases hx
  case multiply => exact ⟨'*', fun _ => rfl, by decide, by decide⟩
  case divide => exact ⟨'/', fun _ => rfl, by decide, by decide⟩
  case mod => exact ⟨'%', fun _ => rfl, by decide, by decide⟩
  case pow => exact ⟨'^', fun _ => rfl, by decide, by decide⟩
  all_goals exact ⟨' ', fun _ => rfl, by decide, by decide⟩

theorem isVariableName.head (hx : isVariableName x) (rest : List Char) :
    (x.toList ++ rest).head? ≠ some '.' := by
  unfold isVariableName at hx
  split at hx
  · cases hx
  · rename_i c cs hcs
    rw [hcs]
    rintro h
    cases h
    simp [show isNameStart '.' = false by decide] at hx

mutual

/-- A text is cut into the tokens of its expression. -/
theorem lex_chars : ∀ {e : Expr} {rest : List Char} {ts : List Token}, e.printable →
    lex rest = some ts → e.Follows rest → lex (e.chars ++ rest) = some (e.tokens ++ ts)
  | .name x, rest, ts, hp, h, hf => by
    have hx : isVariableName x := by simpa [printable] using hp
    have := lex_name hx (fun c hc => (hf c hc).1) h
    simpa [chars, pieces, tokens] using this
  | .number k, rest, ts, hp, h, hf => by
    have hs : Stops (fun c => isNameChar c || c == '.') rest := by
      intro c hc
      obtain ⟨h1, h2⟩ := hf c hc
      have hdot : c ≠ '.' := fun he => nomatch h2 he
      simp [h1, hdot]
    simpa [chars, pieces] using lex_number hs h
  | .text s, rest, ts, hp, h, hf => by
    have hs : isReadable s := by simpa [printable] using hp
    simpa [chars, pieces, tokens] using lex_text hs h
  | .unary op e, rest, ts, hp, h, hf => by
    simp only [printable, Bool.and_eq_true, Bool.or_eq_true, bne_iff_ne] at hp
    obtain ⟨⟨hop, hpe⟩, hminus⟩ := hp
    have hfe : e.Follows rest := fun c hc => ⟨(hf c hc).1, fun he => nomatch (hf c hc).2 he⟩
    have hrest := lex_enclose (enclosedInUnary op e) (fun _ => hfe) (lex_chars hpe) h
    have hhead : op = .minus → ((enclose (enclosedInUnary op e) e.pieces).flatMap String.toList ++
        rest).head? ≠ some '-' := by
      intro hm
      cases hw : enclosedInUnary op e with
      | true => simp [enclose]
      | false =>
        rw [hw] at hminus
        exact avoids.head (by simpa [hm] using hminus) rest
    simpa [chars, pieces, tokens] using lex_unarySign hop hhead hrest
  | .binary op l r, rest, ts, hp, h, hf => by
    simp only [printable, Bool.and_eq_true] at hp
    obtain ⟨⟨hop, hpl⟩, hpr⟩ := hp
    obtain ⟨x, hx⟩ := Option.isSome_iff_exists.mp hop
    obtain ⟨c, hhead, hc, hdot⟩ := head_sign hx
    have hfr : r.Follows rest := fun c hc => ⟨(hf c hc).1, fun he => nomatch (hf c hc).2 he⟩
    have hr := lex_enclose (enclosedIn op r) (fun _ => hfr) (lex_chars hpr) h
    have hl := lex_enclose (enclosedIn op l) (fun _ d hd => by
      rw [hhead] at hd; cases hd
      exact ⟨hc, fun he => absurd he hdot⟩) (lex_chars hpl) (lex_binarySign hx hr)
    simpa [chars, pieces, tokens, hx] using hl
  | .element t k, rest, ts, hp, h, hf => by
    simp only [printable, Bool.and_eq_true] at hp
    obtain ⟨⟨hpre, hpt⟩, hpk⟩ := hp
    have hft : ∀ {d rest}, isNameChar d = false → t.Follows (d :: rest) := by
      rintro d rest hd c hc
      cases hc
      exact ⟨hd, fun _ => hpre⟩
    cases hk : bareKey? k with
    | some x =>
      rw [hk] at hpk
      have hname := lex_name hpk (fun c hc => (hf c hc).1) h
      have := lex_chars hpt (lex_dot (isVariableName.head hpk rest) hname) (hft (by decide))
      simpa [chars, pieces, tokens, hk] using this
    | none =>
      rw [hk] at hpk
      rw [Bool.and_eq_true] at hpk
      have hkey := lex_chars hpk.1 (lex_closeKey h) (fun c hc => by cases hc; exact ⟨by decide, nofun⟩)
      have := lex_chars hpt (lex_openKey (avoids.head hpk.2 _) hkey) (hft (by decide))
      simpa [chars, pieces, tokens, hk] using this
  | .call f as, rest, ts, hp, h, hf => by
    simp only [printable, Bool.and_eq_true] at hp
    obtain ⟨⟨hpre, hpf⟩, hpa⟩ := hp
    have has := lex_openParen (lex_charsOfList hpa (lex_closeParen h))
    have := lex_chars hpf has (fun c hc => by cases hc; exact ⟨by decide, fun _ => hpre⟩)
    simpa [chars, pieces, tokens] using this

theorem lex_charsOfList : ∀ {es : List Expr} {rest : List Char} {ts : List Token},
    printableList es → lex (')' :: rest) = some (.closeParen :: ts) →
    lex ((piecesOfList es).flatMap String.toList ++ ')' :: rest) =
      some (tokensOfList es ++ .closeParen :: ts)
  | [], rest, ts, hp, h => h
  | [e], rest, ts, hp, h => by
    have hpe : e.printable := by simpa [printableList] using hp
    exact lex_chars hpe h (fun c hc => by cases hc; exact ⟨by decide, nofun⟩)
  | e :: e' :: es, rest, ts, hp, h => by
    simp only [printableList, Bool.and_eq_true] at hp
    have hes := @lex_charsOfList (e' :: es) _ _ (by simpa [printableList] using hp.2) h
    have := lex_chars hp.1 (lex_comma hes) (fun c hc => by cases hc; exact ⟨by decide, nofun⟩)
    simpa [chars, piecesOfList, tokensOfList] using this

end

end

end LuaLift.Proofs
