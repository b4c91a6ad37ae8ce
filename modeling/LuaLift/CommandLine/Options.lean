import LuaLift.Text.Datum

/-! # Options

Every option has a letter and a long name and takes a value: `-f v`, `-fv`, `--file v`
or `--file=v`. A long name may be cut short as long as it stays unique. What is no
option is passed over, and so is everything behind `--`. -/
namespace LuaLift.CommandLine

structure Options where
  file : String := ""
  output : String := ""
  version : String := "2.1"
  folder : String := ""
  outputFolder : String := ""
deriving DecidableEq, Repr, Inhabited

inductive OptionKey where
  | help | file | output | version | folder | outputFolder
deriving DecidableEq, Repr

def OptionKey.all : List OptionKey := [.help, .file, .output, .version, .folder, .outputFolder]

def OptionKey.letter : OptionKey → Char
  | .help => 'h'
  | .file => 'f'
  | .output => 'o'
  | .version => 'j'
  | .folder => 'r'
  | .outputFolder => 'd'

def OptionKey.long : OptionKey → String
  | .help => "--help"
  | .file => "--file"
  | .output => "--output"
  | .version => "--jitverion"
  | .folder => "--recursive"
  | .outputFolder => "--dir_out"

def OptionKey.takesValue : OptionKey → Bool
  | .help => false
  | _ => true

def Options.set (o : Options) (value : String) : OptionKey → Options
  | .help => o
  | .file => { o with file := value }
  | .output => { o with output := value }
  | .version => { o with version := value }
  | .folder => { o with folder := value }
  | .outputFolder => { o with outputFolder := value }

def Options.datum (o : Options) : Text.Datum :=
  .record [("file_name", .text o.file), ("output_file", .text o.output),
    ("luajit_version", .text o.version), ("folder_name", .text o.folder),
    ("folder_output", .text o.outputFolder)]

inductive UsageError where
  | unknown (option : String)
  | missingValue (option : String)
  | needlessValue (option : String)
  | ambiguous (option : String) (candidates : List String)
  | noFile
deriving DecidableEq, Repr

def UsageError.message : UsageError → String
  | .unknown o => s!"no such option: {o}"
  | .missingValue o => s!"{o} option requires 1 argument"
  | .needlessValue o => s!"{o} option does not take a value"
  | .ambiguous o cs => "ambiguous option: " ++ o ++ " (" ++ ", ".intercalate cs ++ "?)"
  | .noFile => "options -f is required"

inductive Parsed where
  | options (o : Options)
  | help
  | refused (e : UsageError)
deriving DecidableEq, Repr

/-- The option that a long name, perhaps cut short, stands for. -/
def OptionKey.ofLong (name : String) : Except UsageError OptionKey :=
  match OptionKey.all.find? (·.long = name) with
  | some k => .ok k
  | none => match OptionKey.all.filter (name.toList.isPrefixOf ·.long.toList) with
    | [] => .error (.unknown name)
    | [k] => .ok k
    | ks => .error (.ambiguous name ((ks.map OptionKey.long).mergeSort fun a b => !(b < a)))

def OptionKey.ofLetter (c : Char) : Except UsageError OptionKey :=
  match OptionKey.all.find? (·.letter = c) with
  | some k => .ok k
  | none => .error (.unknown (String.ofList ['-', c]))

/-- What a long option does: the text behind an equals sign, or else the next argument,
is its value. -/
inductive Reading where
  /-- a value for an option, and how many of the following arguments it took -/
  | value (key : OptionKey) (text : String) (taken : Nat)
  | help
  | nothing

/-- The next argument as the value of an option that was given as `name`. -/
def nextValue (key : OptionKey) (name : String) (rest : List String) : Except UsageError Reading :=
  match rest with
  | v :: _ => .ok (.value key v 1)
  | [] => .error (.missingValue name)

def readLong (arg : List Char) (rest : List String) : Except UsageError Reading := do
  let (name, value) := arg.span (· != '=')
  let key ← OptionKey.ofLong (String.ofList name)
  match key.takesValue, value with
  | true, [] => nextValue key key.long rest
  | true, _ :: v => return .value key (String.ofList v) 0
  | false, [] => return .help
  | false, _ => .error (.needlessValue key.long)

/-- Reads letters behind a dash. The rest of the argument behind a letter is its value. -/
def readLetters (cs : List Char) (rest : List String) : Except UsageError Reading :=
  match cs with
  | [] => .ok .nothing
  | c :: more => do
    let key ← OptionKey.ofLetter c
    match key.takesValue, more with
    | false, _ => return .help
    | true, [] => nextValue key (String.ofList ['-', c]) rest
    | true, v => return .value key (String.ofList v) 0

def readArgument (arg : String) (rest : List String) : Except UsageError Reading :=
  match arg.toList with
  | '-' :: '-' :: _ => readLong arg.toList rest
  | '-' :: c :: cs => readLetters (c :: cs) rest
  | _ => .ok .nothing

def parseFrom (o : Options) : List String → Parsed
  | [] => .options o
  | "--" :: _ => .options o
  | arg :: rest =>
    match readArgument arg rest with
    | .error e => .refused e
    | .ok .help => .help
    | .ok .nothing => parseFrom o rest
    | .ok (.value key v taken) =>
      if taken = 0 then parseFrom (o.set v key) rest
      else match rest with
        | _ :: rest' => parseFrom (o.set v key) rest'
        | [] => .options (o.set v key)

def parse (args : List String) : Parsed := parseFrom {} args

def usage : List String := ["Usage: main.py [options]", ""]

def UsageError.lines (e : UsageError) : List String := usage ++ ["main.py: error: " ++ e.message]

def help : List String := usage ++ [
  "Options:",
  "  -h, --help            show this help message and exit",
  "  -f FILE, --file=FILE  decompile file name",
  "  -o FILE, --output=FILE",
  "                        output file for writing",
  "  -j LUAJIT_VERSION, --jitverion=LUAJIT_VERSION",
  "                        luajit version, default 2.1, now support 2.0, 2.1",
  "  -r FOLDER, --recursive=FOLDER",
  "                        recursive decompile lua files",
  "  -d FOLDER, --dir_out=FOLDER",
  "                        directory to output decompiled lua scripts"]

end LuaLift.CommandLine
