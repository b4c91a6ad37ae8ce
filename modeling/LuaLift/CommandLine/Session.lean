import LuaLift.Dump.File
import LuaLift.Pipeline

/-! # Decompiling one dump after the other

A session keeps the tree of the last function that was built, in the state in which the
steps and the writer left it. A dump that is refused leaves that tree in place, and it
is then written once more. -/
namespace LuaLift.CommandLine
open Bytecode Tree

structure Session where
  tree : Option (NodeId × Store) := none
deriving Inhabited

/-- Decompiles a function. The tree is kept from the moment it is built, also if a later
step fails. -/
def Session.decompile (s : Session) (p : Prototype) : Except Fault Unit × Session :=
  match runSteps p [.build] .absent {} with
  | (.error (_, e), _) => (.error e, s)
  | (.ok root, store) =>
    match runSteps p (Step.all.drop 1) root store with
    | (.ok _, store') => (.ok (), ⟨some (root, store')⟩)
    | (.error (_, e), store') => (.error e, ⟨some (root, store')⟩)

def Session.load (s : Session) (numbering : Numbering) (origin : String) (bytes : List UInt8) :
    Except Fault Unit × List String × Session :=
  let r := Dump.read numbering origin bytes
  match r.result with
  | .error e => (.error e, r.log, s)
  | .ok none => (.ok (), r.log, s)
  | .ok (some (_, p)) =>
    let (result, s') := s.decompile p
    (result, r.log, s')

/-- The text of the tree, and why it ends early if it does. -/
def Session.write (s : Session) : String × Option Fault × Session :=
  match s.tree with
  | none => ("", some .noPart, s)
  | some (root, store) =>
    match (Lua.text root).run' store with
    | (.ok (text, e), store') => (text, e, ⟨some (root, store')⟩)
    | (.error e, store') => ("", some e, ⟨some (root, store')⟩)

end LuaLift.CommandLine
