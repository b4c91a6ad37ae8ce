import LuaLift.Text.Datum

/-! # Outlines

An outline shows a value line by line, its parts one tab deeper. -/
namespace LuaLift.Text

inductive Outline where
  | leaf (text : String)
  /-- parts between square brackets -/
  | list (items : List Outline)
  /-- named parts between braces -/
  | record (entries : List (String × Outline))
  /-- named parts below a title -/
  | titled (title : String) (entries : List (String × Outline))
deriving Inhabited

/-- The start of the line of a value. -/
def Outline.lead (level : Nat) (name : Option String) : String :=
  String.ofList (List.replicate level '\t') ++ match name with
    | some n => n ++ " = "
    | none => ""

mutual

def Outline.lines (level : Nat) (name : Option String) : Outline → List String
  | .leaf text => [lead level name ++ text]
  | .list items =>
    (lead level name ++ "[") :: Outline.linesOfItems (level + 1) items ++ [lead level none ++ "]"]
  | .record entries =>
    (lead level name ++ "\x7b") :: Outline.linesOfEntries (level + 1) entries
      ++ [lead level none ++ "\x7d"]
  | .titled title entries =>
    (lead level name ++ title) :: Outline.linesOfEntries (level + 1) entries

def Outline.linesOfItems (level : Nat) : List Outline → List String
  | [] => []
  | o :: os => o.lines level none ++ Outline.linesOfItems level os

def Outline.linesOfEntries (level : Nat) : List (String × Outline) → List String
  | [] => []
  | (n, o) :: es => o.lines level (some n) ++ Outline.linesOfEntries level es

end

def Outline.text (level : Nat) (name : Option String) (o : Outline) : String :=
  String.join ((o.lines level name).map (· ++ "\n"))

mutual

def Outline.ofDatum : Datum → Outline
  | .nil => .titled "NoneType" []
  | .list xs => .list (Outline.ofData xs)
  | .record es => .record (Outline.ofEntries es)
  | d => .leaf d.plain

def Outline.ofData : List Datum → List Outline
  | [] => []
  | d :: ds => Outline.ofDatum d :: Outline.ofData ds

def Outline.ofEntries : List (String × Datum) → List (String × Outline)
  | [] => []
  | (k, d) :: es => (k, Outline.ofDatum d) :: Outline.ofEntries es

end

end LuaLift.Text
