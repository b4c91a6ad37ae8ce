import LuaLift.Number
import LuaLift.Text.Printable

/-! # Plain data

Values that messages are filled with: numbers, texts, and lists and records of them. -/
namespace LuaLift.Text

inductive Datum where
  | nil
  | bool (b : Bool)
  | number (n : Number)
  | text (s : String)
  | list (xs : List Datum)
  /-- keys with values, in order -/
  | record (entries : List (String × Datum))
deriving Inhabited

/-- A number in base sixteen with at least `width` digits. -/
def hexDigits (width n : Nat) : List Char :=
  let ds := Nat.toDigits 16 n
  List.replicate (width - ds.length) '0' ++ ds

def escapeIn (quote : Char) (c : Char) : List Char :=
  let n := c.toNat
  if c = quote ∨ c = '\\' then ['\\', c]
  else if c = '\t' then ['\\', 't']
  else if c = '\n' then ['\\', 'n']
  else if c = '\r' then ['\\', 'r']
  else if isPrintable c then [c]
  else if n < 0x100 then '\\' :: 'x' :: hexDigits 2 n
  else if n < 0x10000 then '\\' :: 'u' :: hexDigits 4 n
  else '\\' :: 'U' :: hexDigits 8 n

/-- A text in single quotes, or in double quotes if it has single quotes only. -/
def quote (s : String) : String :=
  let cs := s.toList
  let q := if cs.contains '\'' && !cs.contains '"' then '"' else '\''
  String.ofList (q :: cs.flatMap (escapeIn q) ++ [q])

mutual

/-- The text of a value inside another one: texts are quoted. -/
def Datum.quoted : Datum → String
  | .nil => "None"
  | .bool true => "True"
  | .bool false => "False"
  | .number n => n.text
  | .text s => quote s
  | .list xs => "[" ++ ", ".intercalate (Datum.quotedAll xs) ++ "]"
  | .record es => "\x7b" ++ ", ".intercalate (Datum.quotedEntries es) ++ "\x7d"

def Datum.quotedAll : List Datum → List String
  | [] => []
  | x :: xs => x.quoted :: Datum.quotedAll xs

def Datum.quotedEntries : List (String × Datum) → List String
  | [] => []
  | (k, v) :: es => (quote k ++ ": " ++ v.quoted) :: Datum.quotedEntries es

end

/-- The text of a value on its own. -/
def Datum.plain : Datum → String
  | .text s => s
  | d => d.quoted

end LuaLift.Text
