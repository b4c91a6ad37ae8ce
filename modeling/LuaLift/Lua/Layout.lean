import LuaLift.Fault

/-! # Layout of program text

The writer emits commands; `Layout.render` turns them into indented lines. After a
statement an empty line follows if the next statement is of another kind, or if
either of the two is a block of its own. -/
namespace LuaLift.Lua

/-- Kinds of statements, in the order that decides on empty lines. -/
inductive StatementKind where
  | assignment | call | ret | breakLoop
  | ifElse | iteratorFor | numericFor | repeatLoop | whileLoop | function
deriving DecidableEq, Repr, Inhabited

def StatementKind.isCompound : StatementKind → Bool
  | .assignment | .call | .ret | .breakLoop => false
  | _ => true

inductive Command where
  | start (k : StatementKind)
  | finish (k : StatementKind)
  | endLine
  | openBlock
  | closeBlock
  | text (s : String)
deriving DecidableEq, Repr

/-- The next command that is neither text nor a line end; a block end after the last. -/
def nextSignificant : List Command → Command
  | [] => .closeBlock
  | .endLine :: rest | .text _ :: rest => nextSignificant rest
  | c :: _ => c

/-- Whether an empty line stands between a statement and the next command. -/
def gapAfter (k : StatementKind) (next : Command) : Except Fault Bool :=
  match next with
  | .closeBlock | .openBlock => .ok false
  | .start k' => .ok (k' != k || k.isCompound || k'.isCompound)
  | _ => .error (.broken "a statement is followed by a statement or by the end of its block")

/-- The text of a list of commands, after text written at an indentation. A fault
comes with the text before it. -/
def renderFrom (indent : Nat) (fresh : Bool) (out : String) : List Command → String × Option Fault
  | [] => (out, none)
  | .start _ :: rest => renderFrom indent fresh out rest
  | .finish k :: rest =>
    match gapAfter k (nextSignificant rest) with
    | .ok true => renderFrom indent true (out ++ "\n\n") rest
    | .ok false => renderFrom indent true (out ++ "\n") rest
    | .error e => (out ++ "\n", some e)
  | .endLine :: rest => renderFrom indent true (out ++ "\n") rest
  | .openBlock :: rest => renderFrom (indent + 1) fresh out rest
  | .closeBlock :: rest =>
    match indent with
    | 0 => (out, some (.broken "a block that ends was begun"))
    | n + 1 => renderFrom n fresh out rest
  | .text s :: rest =>
    let tabs := if fresh then String.ofList (List.replicate indent '\t') else ""
    renderFrom indent false (out ++ tabs ++ s) rest

def render (cs : List Command) : String × Option Fault := renderFrom 0 true "" cs

end LuaLift.Lua
