import LuaLift.Fault
import LuaLift.Text.Datum

/-! # Templates

A template is text with fields in braces. A field names a value by its position, or
takes the next one, and may say how the value is laid out: a fill character, an
alignment, a width and a base. A doubled brace stands for itself. -/
namespace LuaLift.Text

inductive Align where
  | left | right | center
  /-- padding goes between the sign and the digits -/
  | inside
deriving DecidableEq, Repr

structure FieldSpec where
  fill : Char := ' '
  align : Option Align := none
  plus : Bool := false
  width : Nat := 0
  /-- letter that says what is written -/
  type : Option Char := none
deriving DecidableEq, Repr

def alignOf? : Char → Option Align
  | '<' => some .left
  | '>' => some .right
  | '^' => some .center
  | '=' => some .inside
  | _ => none

def takeNat (cs : List Char) : Nat × List Char :=
  let (ds, rest) := cs.span Char.isDigit
  (ds.foldl (fun n c => n * 10 + (c.toNat - '0'.toNat)) 0, rest)

def FieldSpec.parse (cs : List Char) : Except Fault FieldSpec :=
  let (fill, align, rest) : Char × Option Align × List Char := match cs with
    | f :: a :: r =>
      match alignOf? a with
      | some al => (f, some al, r)
      | none => match alignOf? f with
        | some al => (' ', some al, a :: r)
        | none => (' ', none, cs)
    | [f] => match alignOf? f with
      | some al => (' ', some al, [])
      | none => (' ', none, cs)
    | [] => (' ', none, [])
  let (plus, rest) := match rest with
    | '+' :: r => (true, r)
    | '-' :: r => (false, r)
    | r => (false, r)
  let (fill, align, rest) := match rest with
    | '0' :: r => (if align.isNone then '0' else fill, align.or (some .inside), r)
    | r => (fill, align, r)
  let (width, rest) := takeNat rest
  match rest with
  | [] => .ok { fill, align, plus, width }
  | [t] => .ok { fill, align, plus, width, type := some t }
  | _ => .error .unusable

/-- Pads a text, whose sign is given apart, to a width. -/
def FieldSpec.pad (spec : FieldSpec) (default : Align) (sign body : String) : String :=
  let n := spec.width - (sign.length + body.length)
  let fill := fun k => String.ofList (List.replicate k spec.fill)
  match spec.align.getD default with
  | .left => sign ++ body ++ fill n
  | .right => fill n ++ sign ++ body
  | .center => fill (n / 2) ++ sign ++ body ++ fill (n - n / 2)
  | .inside => sign ++ fill n ++ body

/-- The digits of a number in the base that a letter names. -/
def digitsIn? (type : Option Char) (n : Nat) : Option String :=
  match type with
  | none | some 'd' | some 'n' => some (toString n)
  | some 'b' => some (String.ofList (Nat.toDigits 2 n))
  | some 'o' => some (String.ofList (Nat.toDigits 8 n))
  | some 'x' => some (String.ofList (Nat.toDigits 16 n))
  | some 'X' => some (String.ofList ((Nat.toDigits 16 n).map Char.toUpper))
  | _ => none

def FieldSpec.write (spec : FieldSpec) (d : Datum) : Except Fault String :=
  let integer := fun (v : Int) => match digitsIn? spec.type v.natAbs with
    | some ds => .ok (spec.pad .right (if v < 0 then "-" else if spec.plus then "+" else "") ds)
    | none => .error .unusable
  match d with
  | .number (.int v) => integer v
  | .bool b => if spec = {} then .ok d.plain else integer (if b then 1 else 0)
  | .text s =>
    if spec.align = some .inside && spec.fill != '0' then .error .unusable
    else if spec.type = none ∨ spec.type = some 's' then
      let spec := if spec.align = some .inside then { spec with align := some .left } else spec
      .ok (spec.pad .left "" s)
    else .error .unusable
  | .number n => if spec.type.isNone then .ok (spec.pad .right "" n.text) else .error .unusable
  | _ => if spec = {} then .ok d.plain else .error .illTyped

/-- How far the fields of a template are numbered. -/
inductive Counting where
  | undecided
  | automatic (next : Nat)
  | manual
deriving DecidableEq, Repr

/-- The value that a field names. -/
def fieldValue (args : List Datum) (name : List Char) (counting : Counting) :
    Except Fault (Datum × Counting) :=
  let positional := fun (k : Nat) (c : Counting) => match args[k]? with
    | some d => .ok (d, c)
    | none => .error .outside
  if name.isEmpty then
    match counting with
    | .undecided => positional 0 (.automatic 1)
    | .automatic k => positional k (.automatic (k + 1))
    | .manual => .error .unusable
  else if name.all Char.isDigit then
    match counting with
    | .automatic _ => .error .unusable
    | _ => positional (takeNat name).1 .manual
  else if name.contains '.' then .error .noPart
  else if name.contains '[' then .error .illTyped
  else .error .noEntry

/-- Fills in one field, given the text between its braces. -/
def fillField (args : List Datum) (field : List Char) (counting : Counting) :
    Except Fault (String × Counting) := do
  let (head, spec) := field.span (· != ':')
  let (name, conversion) := head.span (· != '!')
  let (d, counting) ← fieldValue args name counting
  let d ← match conversion with
    | [] => pure d
    | ['!', 'r'] | ['!', 'a'] => pure (.text d.quoted)
    | ['!', 's'] => pure (.text d.plain)
    | _ => .error .unusable
  let spec ← FieldSpec.parse (spec.drop 1)
  return (← spec.write d, counting)

/-- Fills in a template. Every step takes a character, so as much `fuel` as there are
characters suffices. -/
def fillFrom (args : List Datum) : Nat → List Char → Counting → Except Fault (List Char)
  | 0, _, _ => .ok []
  | _ + 1, [], _ => .ok []
  | fuel + 1, '\x7b' :: '\x7b' :: rest, counting => do
    return '\x7b' :: (← fillFrom args fuel rest counting)
  | fuel + 1, '\x7d' :: '\x7d' :: rest, counting => do
    return '\x7d' :: (← fillFrom args fuel rest counting)
  | _ + 1, '\x7d' :: _, _ => .error .unusable
  | fuel + 1, '\x7b' :: rest, counting => do
    let (field, after) := rest.span (· != '\x7d')
    if after.isEmpty then .error .unusable
    let (s, counting) ← fillField args field counting
    return s.toList ++ (← fillFrom args fuel (after.drop 1) counting)
  | fuel + 1, c :: rest, counting => do return c :: (← fillFrom args fuel rest counting)

def fill (template : String) (args : List Datum) : Except Fault String := do
  return String.ofList (← fillFrom args (template.length + 1) template.toList .undecided)

/-- A message: a template and its values, or, without a template, the values. -/
def message (args : List Datum) : Except Fault String :=
  match args with
  | [] => .error .outside
  | .text "" :: rest => .ok (" ".intercalate (rest.map Datum.quoted))
  | .text template :: rest => fill template rest
  | all => .ok (" ".intercalate (all.map Datum.quoted))

/-- The text of a line: nothing, a value as it is, or a template with its values. -/
def lineText (args : List Datum) : Except Fault String :=
  match args with
  | [] => .ok ""
  | [d] => .ok d.plain
  | .text template :: rest => fill template rest
  | _ => .error .noPart

/-- The text of several lines: as it is, or a template with its values. -/
def blockText (args : List Datum) : Except Fault String :=
  match args with
  | [] => .error .illTyped
  | [.text s] => .ok s
  | .text template :: rest => fill template rest
  | _ => .error .noPart

end LuaLift.Text
