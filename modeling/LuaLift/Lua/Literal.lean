import LuaLift.Text.WordChar
import LuaLift.Tree.Node

/-! # Names and literals

How names and constants are spelled in the program text. -/
namespace LuaLift.Lua
open Tree

/-- Whether a text is written as a bare name: word characters, at least one, and at
most one line end after them. -/
def isName (s : String) : Bool :=
  let cs := s.toList
  let body := if cs.getLast? = some '\n' then cs.dropLast else cs
  !body.isEmpty && body.all Text.isWordChar

def escape (c : Char) : List Char :=
  if c = '\\' then ['\\', '\\']
  else if c = '\t' then ['\\', 't']
  else if c = '\n' then ['\\', 'n']
  else if c = '\r' then ['\\', 'r']
  else if c = '"' then ['\\', '"']
  else [c]

def quoted (s : String) : String := "\"" ++ String.ofList (s.toList.flatMap escape) ++ "\""

/-- A literal in long brackets, on lines of its own. -/
def bracketed (s : String) : String := "[[\n" ++ s ++ "]]"

/-- A text with more than two line ends stands in long brackets, any other in quotes. -/
def textLiteral (s : String) : String :=
  if s.toList.count '\n' > 2 then bracketed s else quoted s

/-- The text of a value that is not written as a text literal. -/
def plain : Literal → String
  | .absent => "None"
  | .number n => n.text
  | .text s => s
  | .pair re im => "(" ++ re.text ++ ", " ++ im.text ++ ")"
  | .object => "object"

end LuaLift.Lua
