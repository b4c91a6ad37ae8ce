import LuaLift.Flow.LoopEntry
import LuaLift.Flow.Structure
import LuaLift.Lift.Function
import LuaLift.Locals.Definitions
import LuaLift.Locals.Names
import LuaLift.Lua.Writer
import LuaLift.Tidy
import LuaLift.Tree.Validity

/-! # From a prototype to program text

The steps of decompilation in order. `decompile` runs all of them; `trace` shows the
text of the tree after each one. -/
namespace LuaLift
open Bytecode Tree

inductive Step where
  | build | validate | moveTests | nameLocals | inlineSlots
  | arrange (stage : Flow.Stage) | join
  | markDefinitions | tidy | validateStructured
deriving DecidableEq, Repr

def Step.all : List Step :=
  [.build, .validate, .moveTests, .nameLocals, .inlineSlots,
   .arrange .loops, .arrange .repeats, .arrange .values, .arrange .branches, .join,
   .markDefinitions, .tidy, .validateStructured]

def Step.changes : Step → Bool
  | .validate | .validateStructured => false
  | _ => true

/-- Runs a step on the tree of a function. The first step makes the tree. -/
def Step.run (p : Prototype) (root : NodeId) : Step → Edit NodeId
  | .build => Lift.lift p
  | .validate => do Tree.validate true root; return root
  | .moveTests => do Flow.moveLoopTests root; return root
  | .nameLocals => do Locals.nameLocals root; return root
  | .inlineSlots => do Slots.inlineSlots root; return root
  | .arrange stage => do stage.run root; return root
  | .join => do Flow.join root; return root
  | .markDefinitions => do Locals.markDefinitions root; return root
  | .tidy => do Tidy.tidy root; return root
  | .validateStructured => do Tree.validate false root; return root

/-- Runs steps in order, and stops at the first that fails. -/
def runSteps (p : Prototype) : List Step → NodeId → Store → Except (Step × Fault) NodeId × Store
  | [], root, s => (.ok root, s)
  | step :: rest, root, s =>
    match (step.run p root).run' s with
    | (.ok root', s') => runSteps p rest root' s'
    | (.error e, s') => (.error (step, e), s')

/-- Where decompilation fails: in a step, or when the text is written. -/
inductive Failure where
  | step (s : Step) (e : Fault)
  | writing (e : Fault)

def writeText (root : NodeId) (s : Store) : Except Fault String :=
  match ((Lua.text root).run' s).1 with
  | .ok (text, none) => .ok text
  | .ok (_, some e) | .error e => .error e

def decompile (p : Prototype) : Except Failure String :=
  match runSteps p Step.all .absent {} with
  | (.error (step, e), _) => .error (.step step e)
  | (.ok root, s) =>
    match writeText root s with
    | .ok text => .ok text
    | .error e => .error (.writing e)

/-- The tree after a step, or why there is none. -/
inductive Snapshot where
  | text (s : String)
  /-- a step that changes nothing -/
  | unchanged
  | unwritable (e : Fault)
  | failed (e : Fault)

/-- The tree after each step, up to the first that fails. -/
def traceFrom (p : Prototype) : List Step → NodeId → Store → List (Step × Snapshot)
  | [], _, _ => []
  | step :: rest, root, s =>
    match (step.run p root).run' s with
    | (.error e, _) => [(step, .failed e)]
    | (.ok root', s') =>
      let later := traceFrom p rest root' s'
      if step.changes then
        match writeText root' s' with
        | .ok text => (step, .text text) :: later
        | .error e => (step, .unwritable e) :: later
      else (step, .unchanged) :: later

def trace (p : Prototype) : List (Step × Snapshot) := traceFrom p Step.all .absent {}

end LuaLift
