import LuaLift.Fault

/-! # Indented text

A writer of lines, each after as many tabs as blocks are open. A line is written in
one go or piece by piece. -/
namespace LuaLift.Text

structure Indented where
  text : String := ""
  indent : Int := 0
  /-- a line is begun and not ended -/
  lineOpen : Bool := false
deriving Repr, Inhabited

abbrev Lines := EStateM Fault Indented

namespace Lines

def tabs (n : Int) : String := String.ofList (List.replicate n.toNat '\t')

def put (s : String) : Lines Unit := modify fun w => { w with text := w.text ++ s }

def demand (holds : Bool) (rule : String) : Lines Unit :=
  if holds then return () else throw (.broken rule)

/-- A value that may have failed to come about. -/
def obtain {α : Type} (x : Except Fault α) : Lines α :=
  match x with
  | .ok a => return a
  | .error e => throw e

def startLine : Lines Unit := do
  demand (!(← get).lineOpen) "a line starts when none is open"
  modify fun w => { w with lineOpen := true }
  put (tabs (← get).indent)

def write (s : Except Fault String) : Lines Unit := do
  demand (← get).lineOpen "text is written to an open line"
  let s ← obtain s
  demand (!s.toList.contains '\n') "text of a line has no line ends"
  put s

def endLine : Lines Unit := do
  demand (← get).lineOpen "the line that ends is open"
  put "\n"
  modify fun w => { w with lineOpen := false }

def writeLine (s : Except Fault String) : Lines Unit := do
  startLine
  write s
  endLine

/-- Writes a text of several lines. One line end at the start and one at the end of the
text do not count. -/
def writeMultiline (s : Except Fault String) : Lines Unit := do
  demand (!(← get).lineOpen) "lines are written when none is open"
  let lines := ((← obtain s).toList.splitOn '\n').map String.ofList
  let lines := if lines.head? = some "" then lines.drop 1 else lines
  match lines.getLast? with
  | none => throw .outside
  | some last =>
    let lines := if last = "" then lines.dropLast else lines
    let indent := (← get).indent
    lines.forM fun line => put (tabs indent ++ line ++ "\n")

/-- Opens a block, after a line if there is one. -/
def openBlock (s : Option (Except Fault String)) : Lines Unit := do
  s.forM writeLine
  modify fun w => { w with indent := w.indent + 1 }

/-- Closes a block, after a line if there is one. -/
def closeBlock (s : Option (Except Fault String)) : Lines Unit := do
  s.forM writeLine
  modify fun w => { w with indent := w.indent - 1 }

end Lines

end LuaLift.Text
