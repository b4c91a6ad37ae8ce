import LuaLift.CommandLine.Files
import LuaLift.CommandLine.Options
import LuaLift.CommandLine.Session

/-! # A run of the program

Either one dump is decompiled, to a file or to the output, or every file of a folder
whose name ends in `.lua`. A folder's own files come before those of its folders, both
in order of their names. -/
namespace LuaLift.CommandLine
open Bytecode

structure Progress where
  files : Files
  session : Session := {}
  output : String := ""
  log : List String := []
  /-- the files that were written, newest first -/
  written : List (Path × String) := []
deriving Inhabited

abbrev Run := EStateM Fault Progress

namespace Run

def info (message : String) : Run Unit :=
  modify fun p => { p with log := p.log ++ ["LJD         : INFO     " ++ message] }

def store (path : Path) (text : String) : Run Unit :=
  modify fun p => { p with
    files := p.files.write path text.toUTF8.toList
    written := (path, text) :: p.written.filter (·.1 != path) }

/-- Takes the text of the tree that the session keeps. -/
def takeText : Run (String × Option Fault) :=
  modifyGet fun p =>
    let (text, e, session) := p.session.write
    ((text, e), { p with session })

def failIf (e : Option Fault) : Run Unit :=
  match e with
  | some e => throw e
  | none => return ()

def decompile (numbering : Numbering) (file : String) : Run Unit := do
  match (← get).files.read? (Path.ofText file) with
  | none => throw .noFile
  | some bytes =>
    let result ← modifyGet fun p =>
      let (result, log, session) := p.session.load numbering file bytes
      (result, { p with session, log := p.log ++ log })
    match result with
    | .ok _ => return ()
    | .error e => throw e

/-- Writes the text to a file in a folder that exists. As much of the text as there is
gets written even if it ends early. -/
def writeFile (file : String) : Run Unit := do
  let path := Path.ofText file
  let files := (← get).files
  if path.isEmpty || files.isFolder path || !files.isFolder path.dropLast then throw .noFile
  let (text, e) ← takeText
  store path text
  failIf e

def print : Run Unit := do
  let (text, e) ← takeText
  modify fun p => { p with output := p.output ++ text }
  failIf e

/-- Makes a folder and those above it, unless a file is in the way. -/
def makeFolder (folder : String) : Run Unit := do
  let path := Path.ofText folder
  let files := (← get).files
  if folder = "" || (path :: path.above).any (fun p => (files.read? p).isSome) then throw .noFile
  modify fun p => { p with files := p.files.addFolder path }

/-- Decompiles a file of a folder to the place that corresponds to it in the output
folder. -/
def convert (o : Options) (numbering : Numbering) (file : String) (inside : Path) :
    Run Unit := do
  decompile numbering file
  let target := joinText o.outputFolder ("/".intercalate inside)
  makeFolder (parentText target)
  writeFile target

/-- Converts a file and tells how it went. -/
def report (o : Options) (numbering : Numbering) (file : String) (inside : Path) :
    Run Unit := do
  info file
  try
    convert o numbering file inside
    info "Success"
  catch _ => info "Exception"

/-- A folder as it is shown, and where it stands in the folder that is walked. -/
structure Place where
  shown : String
  inside : Path

def isScript (name : String) : Bool := (".lua".toList).isSuffixOf name.toList

/-- Walks folders, at most as many as `fuel`. What is in a folder is looked up when its
turn comes. -/
def walk (o : Options) (numbering : Numbering) : Nat → List Place → Run Unit
  | 0, _ => return ()
  | _ + 1, [] => return ()
  | fuel + 1, place :: others => do
    let files := (← get).files
    let folder := Path.ofText o.folder ++ place.inside
    ((files.namesIn folder).filter isScript).forM fun name =>
      report o numbering (joinText place.shown name) (place.inside ++ [name])
    let deeper := (files.foldersIn folder).map fun name =>
      ⟨joinText place.shown name, place.inside ++ [name]⟩
    walk o numbering fuel (deeper ++ others)

/-- A bound on the number of folders that can be walked. -/
def walkBound (o : Options) (f : Files) : Nat :=
  2 * (f.folders.length + (Path.ofText o.outputFolder).length + 1)

/-- Runs with options; the result is the exit code. -/
def withOptions (o : Options) : Run Nat := do
  match Numbering.ofVersion? o.version with
  | none => throw .noNumbering
  | some numbering =>
    if o.folder ≠ "" then
      walk o numbering (walkBound o (← get).files) [⟨o.folder, []⟩]
      return 0
    else if o.file = "" then
      modify fun p => { p with
        output := p.output ++ o.datum.plain ++ "\n"
        log := p.log ++ UsageError.noFile.lines }
      return 2
    else
      decompile numbering o.file
      if o.output ≠ "" then writeFile o.output else print
      return 0

def withArguments (args : List String) : Run Nat :=
  match parse args with
  | .options o => withOptions o
  | .help => do
    modify fun p => { p with output := p.output ++ String.join (help.map (· ++ "\n")) }
    return 0
  | .refused e => do
    modify fun p => { p with log := p.log ++ e.lines }
    return 2

end Run

structure Outcome where
  exit : Except Fault Nat
  progress : Progress

def run (args : List String) (files : Files) : Outcome :=
  match (Run.withArguments args).run { files } with
  | .ok code p => ⟨.ok code, p⟩
  | .error e p => ⟨.error e, p⟩

end LuaLift.CommandLine
