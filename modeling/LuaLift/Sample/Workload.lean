import LuaLift.CommandLine.Run
import LuaLift.Listing.Writer
import LuaLift.Sample.Programs

/-! # Workloads

Runs over the samples, each with the lengths of the texts that come of it or the number of
messages. -/
namespace LuaLift.Sample
open Bytecode Dump Tree

/-- The file that the `i`-th sample of a workload is read from. -/
def sampleFile (i : Nat) : String := s!"bench0/f{i}.ljc"

def open? (bytes : Bytes) : Except Fault (Header × Prototype) :=
  match (Dump.read .current (sampleFile 0) bytes).result with
  | .ok (some r) => .ok r
  | .ok none => .error .unusable
  | .error e => .error e

def programText (bytes : Bytes) : Except Fault String := do
  match decompile (← open? bytes).2 with
  | .ok s => .ok s
  | .error (.step _ e) | .error (.writing e) => .error e

def listingText (bytes : Bytes) : Except Fault String := do
  let (h, p) ← open? bytes
  match Listing.text h p with
  | (s, none) => .ok s
  | (_, some e) => .error e

/-- The text of a sample's tree before its control flow is arranged. -/
def unarrangedText (bytes : Bytes) : Except Fault String := do
  match runSteps (← open? bytes).2 [.build] .absent {} with
  | (.ok root, s) => writeText root s
  | (.error (_, e), _) => .error e

def lengths (texts : List (Except Fault String)) : Except Fault (List Nat) :=
  texts.mapM fun t => t.map String.length

def arithmeticWork (n : Nat) : Except Fault (List Nat) := do
  let program ← programText (arithmetic n)
  let listing ← listingText (arithmetic n)
  return [program.length + listing.length]

def branchWork (n : Nat) : Except Fault (List Nat) := lengths [programText (branches n)]

/-- The loops, `n` times and at least once. -/
def loopWork (n : Nat) : Except Fault (List Nat) :=
  lengths ((List.replicate (max 1 n) [numericFor, genericFor, whileLoop, repeatLoop]).flatten.map
    programText)

def unarrangedWork (n : Nat) : Except Fault (List Nat) :=
  lengths ([branches n, numericFor, genericFor].map unarrangedText)

/-- The number of messages when the malformed dumps are read, `n` times and at least
once. -/
def refusalWork (n : Nat) : Nat :=
  let messages := fun bytes => (Dump.read .current (sampleFile 0) bytes).log.length
  max 1 n * (malformed.map messages).foldr (· + ·) 0

/-! ## Runs of the program -/

/-- The scripts of a folder, in turn. -/
def scripts : List Bytes := [arithmetic 10, branches 4, numericFor, tableLiteral, shortCircuit]

def scriptName (i : Nat) : String := s!"f{i}.lua"

/-- A folder of `n` scripts, at least one. -/
def scriptFiles (n : Nat) : CommandLine.Files :=
  .ofContents ((List.range (max 1 n)).map fun i => (["bench0", scriptName i], pick [] scripts i))

/-- The exit code of a run and what it has done. -/
def runWith (n : Nat) (args : List String) : Except Fault (Nat × CommandLine.Progress) := do
  let o := CommandLine.run args (scriptFiles n)
  return (← o.exit, o.progress)

/-- The length of a file that a run has written, 0 if it has not. -/
def writtenLength (p : CommandLine.Progress) (path : CommandLine.Path) : Nat :=
  ((p.written.lookup path).map String.length).getD 0

/-- Runs to the output, with a version, to a file and over a folder: the exit codes, and
the lengths of what was written. -/
def commandLineWork (n : Nat) : Except Fault (List Nat) := do
  let first := "bench0/" ++ scriptName 0
  let (shown, _) ← runWith n ["-f", first]
  let (versioned, _) ← runWith n ["-f", first, "-j", "2.1"]
  let (stored, p) ← runWith n ["-f", first, "-o", "out.lua"]
  let (walked, q) ← runWith n ["-r", "bench0", "-d", "bench1"]
  return [shown, versioned, stored, writtenLength p ["out.lua"], walked]
    ++ (List.range (max 1 n)).map fun i => writtenLength q ["bench1", scriptName i]

end LuaLift.Sample
