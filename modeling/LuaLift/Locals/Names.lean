import LuaLift.Tree.Walk

/-! # Names of local variables

A slot that is used gets the name of the variable that the debug information shows
for it at the first address from the use on at which it shows one. An assignment to
the slot ends the search. -/
namespace LuaLift.Locals
open Bytecode Tree Pass

/-- Uses of slots in one function that have no name yet. -/
structure Uses where
  pending : List (Int × List NodeId) := []
  debug : Option DebugInfo := none
  address : Int := -1
deriving Inhabited

/-- The functions around the current node, innermost first. -/
abbrev Naming := Pass (List Uses)

def current : Naming Uses := do
  match ← own with
  | u :: _ => return u
  | [] => throw .outside

def modifyCurrent (f : Uses → Uses) : Naming Unit := do
  match ← own with
  | u :: us => setOwn (f u :: us)
  | [] => throw .outside

def nameUse (v : Variable) (i : NodeId) : Naming Unit := do
  match ← node i with
  | .identifier x =>
    setNode i (.identifier { x with name := some v.name, kind := .named, info := some v })
  | _ => return ()

/-- Names the pending uses whose slot has a variable at an address; uses of a variable
that the compiler made stay unnamed. -/
def nameAt (address : Int) : Naming Unit := do
  let u ← current
  match u.debug with
  | none => unless u.pending.isEmpty do throw .noPart
  | some debug =>
    let rest ← u.pending.filterM fun (slot, uses) => do
      match debug.variableIn? address slot with
      | none => return true
      | some v =>
        if v.kind == .visible then uses.forM (nameUse v)
        return false
    modifyCurrent ({ · with pending := rest })

/-- Ends the search for the names of a slot. -/
def forget (slot : Int) : Naming Unit :=
  modifyCurrent fun u => { u with pending := u.pending.filter (·.1 != slot) }

def forgetAll (ids : List NodeId) : Naming Unit :=
  ids.forM fun i => do
    match ← node i with
    | .identifier x => forget x.slot
    | _ => return ()

def addUse (slot : Int) (i : NodeId) : List (Int × List NodeId) → List (Int × List NodeId)
  | [] => [(slot, [i])]
  | (s, is) :: rest => if s = slot then (s, is ++ [i]) :: rest else (s, is) :: addUse slot i rest

/-- Goes on to the address of a statement or an exit. -/
def arrive (i : NodeId) : Naming Unit := do
  let c ← cell i
  match c.node, c.address with
  | .identifier _, _ | _, none => return ()
  | _, some a =>
    require ((← current).address ≤ a) "addresses do not decrease"
    modifyCurrent ({ · with address := a })
    nameAt a

def namingVisitor : Visitor (List Uses) where
  enter i := do
    arrive i
    match ← node i with
    | .function _ _ scope => modifyOwn ({ debug := scope.debug } :: ·)
    | .list .targets xs =>
      nameAt (← current).address
      forgetAll xs
    | .list .identifiers xs => forgetAll xs
    | .count index _ _ _ =>
      match ← node index with
      | .identifier x => forget x.slot
      | _ => throw .noPart
    | .identifier x =>
      if x.kind == .slot then modifyCurrent fun u => { u with pending := addUse x.slot i u.pending }
    | _ => return ()
  leave i := do
    match ← node i with
    | .function _ _ scope =>
      nameAt scope.instructionCount
      modifyOwn (·.drop 1)
    | _ => pure ()
    arrive i

def nameLocals (root : NodeId) : Edit Unit := do
  let _ ← within ([] : List Uses) (walkTree namingVisitor root)

end LuaLift.Locals
