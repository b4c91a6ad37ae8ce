/-! # Paths and files

A path is the list of its components. `Files` says what is in the files and which
folders there are. -/
namespace LuaLift.CommandLine

abbrev Path := List String

/-- Adds a component to a path given backwards; `..` takes one away. -/
def Path.step (back : List String) (part : String) : List String :=
  if part = "" ∨ part = "." then back
  else if part = ".." then match back with
    | [] | ".." :: _ => ".." :: back
    | "/" :: _ => back
    | _ :: above => above
  else part :: back

def Path.pieces (s : String) : List String := (s.toList.splitOn '/').map String.ofList

/-- The components of a path. The root is a component of its own. -/
def Path.ofText (s : String) : Path :=
  let start := if s.toList.head? = some '/' then ["/"] else []
  ((Path.pieces s).foldl Path.step start).reverse

def joinText (a b : String) : String :=
  if b.toList.head? = some '/' then b
  else if a = "" ∨ a.toList.getLast? = some '/' then a ++ b
  else a ++ "/" ++ b

/-- The text of a path up to its last component, empty if there is only one. -/
def parentText (s : String) : String :=
  let back := s.toList.reverse.dropWhile (· != '/')
  let trimmed := back.dropWhile (· == '/')
  String.ofList (if trimmed.isEmpty then back.reverse else trimmed.reverse)

/-- Files with their bytes, and folders. The folder in which everything stands is the
empty path. -/
structure Files where
  contents : List (Path × List UInt8) := []
  folders : List Path := []
deriving Inhabited

def Path.above (p : Path) : List Path := (List.range p.length).map p.take

def Files.ofContents (contents : List (Path × List UInt8)) : Files :=
  ⟨contents, contents.flatMap (·.1.above)⟩

def Files.read? (f : Files) (p : Path) : Option (List UInt8) := f.contents.lookup p

def Files.isFolder (f : Files) (p : Path) : Bool := p.isEmpty || f.folders.contains p

/-- Stores a file, in place of one with the same path. -/
def Files.write (f : Files) (p : Path) (bytes : List UInt8) : Files :=
  { f with contents := (p, bytes) :: f.contents.filter (·.1 != p) }

def Files.addFolder (f : Files) (p : Path) : Files :=
  { f with folders := p :: p.above ++ f.folders }

def sorted (names : List String) : List String := names.mergeSort fun a b => !(b < a)

/-- The name of a path that stands directly in a folder. -/
def Path.nameIn? (folder p : Path) : Option String :=
  match p.getLast? with
  | some name => if p.dropLast = folder then some name else none
  | none => none

/-- The names of the files in a folder, in order. -/
def Files.namesIn (f : Files) (folder : Path) : List String :=
  sorted (f.contents.filterMap fun (p, _) => Path.nameIn? folder p)

def Files.foldersIn (f : Files) (folder : Path) : List String :=
  sorted (f.folders.filterMap (Path.nameIn? folder ·)).eraseDups

end LuaLift.CommandLine
