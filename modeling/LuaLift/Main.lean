import LuaLift.CommandLine.Run

/-! # The program

Collects the files that a run may read, runs, and puts the result in place. -/
namespace LuaLift.CommandLine

def readIfThere (path : String) : IO (List (Path × List UInt8)) := do
  try
    let bytes ← IO.FS.readBinFile path
    return [(Path.ofText path, bytes.toList)]
  catch _ => return []

/-- Reads all files of a folder and of the folders in it. -/
partial def readFolder (entry : IO.FS.DirEntry) : IO (List (Path × List UInt8)) := do
  let mut found := []
  for e in ← entry.path.readDir do
    if ← e.path.isDir then found := found ++ (← readFolder e)
    else found := found ++ (← readIfThere e.path.toString)
  return found

def folderEntry (path : String) : IO.FS.DirEntry := ⟨path, ""⟩

/-- The files that a run with these options may read, and the folders it may write to. -/
def collect (o : Options) : IO Files := do
  let mut contents := []
  if o.folder ≠ "" then
    if ← (folderEntry o.folder).path.isDir then contents ← readFolder (folderEntry o.folder)
  else contents ← readIfThere o.file
  let files := Files.ofContents contents
  let parent := parentText o.output
  if parent ≠ "" then
    if ← (folderEntry parent).path.isDir then return files.addFolder (Path.ofText parent)
  return files

def place (path : Path) (text : String) : IO Unit := do
  if path.length > 1 then IO.FS.createDirAll ("/".intercalate path.dropLast)
  IO.FS.writeFile ("/".intercalate path) text

end LuaLift.CommandLine

open LuaLift CommandLine in
def main (args : List String) : IO UInt32 := do
  let files ← match parse args with
    | .options o => collect o
    | _ => pure {}
  let outcome := run args files
  for (path, text) in outcome.progress.written.reverse do place path text
  IO.print outcome.progress.output
  for line in outcome.progress.log do IO.eprintln line
  match outcome.exit with
  | .ok code => return code.toUInt32
  | .error e =>
    IO.eprintln (e.message.getD "decompilation failed")
    return 1
