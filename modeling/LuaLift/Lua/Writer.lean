import LuaLift.Lua.Literal
import LuaLift.Lua.Layout
import LuaLift.Tree.Store

/-! # Program text of a tree

Each node emits commands for `Layout`. Within one node every part is written once:
a part that stands in two places of the same node is left out the second time. A
call whose first argument is the table of its function is written as a method call,
and loses that argument. -/
namespace LuaLift.Lua
open Tree Pass

/-- The statement that is being written, one for each list of statements. -/
structure Frame where
  current : Option StatementKind := none
  /-- the variable that the function written next is assigned to -/
  functionName : Option NodeId := none
  functionLocal : Bool := false
deriving Inhabited

structure Draft where
  commands : Array Command := #[]
  /-- parts of the current node that are written or left out -/
  done : List NodeId := []
  /-- innermost first; the last one belongs to no list -/
  frames : List Frame := [{}]
deriving Inhabited

abbrev Write := Pass Draft

def emit (c : Command) : Write Unit := modifyOwn fun d => { d with commands := d.commands.push c }

def put (s : String) : Write Unit := emit (.text s)

def endLine : Write Unit := emit .endLine

def frame : Write Frame := return (← own).frames.headD {}

def modifyFrame (f : Frame → Frame) : Write Unit := modifyOwn fun d =>
  { d with frames := match d.frames with
      | x :: xs => f x :: xs
      | [] => [f {}] }

def startStatement (k : StatementKind) : Write Unit := do
  require ((← frame).current == none) "a statement starts when none is open"
  modifyFrame ({ · with current := some k })
  emit (.start k)

def endStatement (k : StatementKind) : Write Unit := do
  require ((← frame).current == some k) "the statement that ends is the open one"
  modifyFrame ({ · with current := none })
  emit (.finish k)

/-- Leaves a part of the current node out from now on. -/
def leaveOut (i : NodeId) : Write Unit := modifyOwn fun d => { d with done := i :: d.done }

/-- Runs an action with a fresh record of parts, as for a node of its own. -/
def fresh (act : Write Unit) : Write Unit := do
  let outer := (← own).done
  modifyOwn ({ · with done := [] })
  act
  modifyOwn ({ · with done := outer })

/-- Writes a part of the current node, unless that is done; `inner` writes a node. -/
def part (inner : NodeId → Write Unit) (i : NodeId) : Write Unit := do
  require (i != .absent) "a part of a node is missing"
  unless (← own).done.contains i do
    leaveOut i
    fresh (inner i)

def isNameKey (key : Node) : Write Bool :=
  match key with
  | .constant .text (.text s) => return isName s
  | .constant .text _ => throw .illTyped
  | _ => return false

def isBuiltin : Node → Bool
  | .identifier x => x.kind == .builtin
  | _ => false

def isGlobal (n : Node) : Write Bool := do
  match n with
  | .element table _ => return isBuiltin (← node table)
  | _ => return false

def keyText : Node → String
  | .constant _ v => plain v
  | _ => ""

/-- Whether an operand of a binary operator stands in parentheses, by the codes of
the operators. Operators of one class are not told apart, but `and` inside `or`
and the reverse are. -/
def needsParentheses (outer inner : Int) : Bool :=
  if outer ≤ BinaryOp.and.code then
    (inner ≤ outer || inner ≤ BinaryOp.and.code) && inner != outer
  else inner < outer

def binarySign : BinaryOp → Option String
  | .or => some " or "
  | .and => some " and "
  | .less => some " < "
  | .greater => some " > "
  | .lessEqual => some " <= "
  | .greaterEqual => some " >= "
  | .notEqual => some " ~= "
  | .equal => some " == "
  | .concat => some " .. "
  | .add => some " + "
  | .subtract => some " - "
  | .divide => some "/"
  | .multiply => some "*"
  | .mod => some "%"
  | .pow => some "^"
  | .other _ => none

def unarySign : UnaryOp → String
  | .length => "#"
  | .minus => "-"
  | .not => "not "
  | .toText => "tostring"
  | .toNumber => "tonumber"
  | .other _ => ""

section
variable (inner : NodeId → Write Unit)

def parenthesized (wanted : Bool) (act : Write Unit) : Write Unit := do
  if wanted then put "("
  act
  if wanted then put ")"

def writeFunction (arguments statements : NodeId) : Write Unit := do
  let f ← frame
  match f.functionName with
  | some name =>
    startStatement .function
    if f.functionLocal then put "local "
    put "function "
    part inner name
    put "("
    modifyFrame ({ · with functionName := none })
  | none => put "function ("
  part inner arguments
  put ")"
  endLine
  part inner statements
  put "end"
  if f.functionName.isSome then endStatement .function

def separated (separator : Write Unit) : List NodeId → Write Unit
  | [] => return ()
  | [x] => part inner x
  | x :: xs => do
    part inner x
    separator
    separated separator xs

def writeRecords (xs : List NodeId) : Write Unit := do
  separated inner (do put ","; endLine) xs
  unless xs.isEmpty do endLine

def recordValue (i : NodeId) : Write NodeId := do
  match ← node i with
  | .arrayRecord v | .tableRecord _ v => return v
  | _ => throw .noPart

/-- Writes a constructor. The first array item has key 0 and is written with its
key, or left out if it is nil. -/
def writeTable (array records : NodeId) : Write Unit := do
  put "\x7b"
  let arrayItems ← items array
  let recordItems ← items records
  unless arrayItems.isEmpty && recordItems.isEmpty do
    endLine
    emit .openBlock
    match arrayItems with
    | [] => fresh (writeRecords inner recordItems)
    | zeroth :: others =>
      let first ← recordValue zeroth
      let rest := others ++ recordItems
      match ← node first with
      | .primitive .nil => fresh (writeRecords inner rest)
      | _ => fresh do
        put "[0] = "
        fresh (part inner first)
        unless rest.isEmpty do
          put ","
          endLine
        writeRecords inner rest
        if rest.isEmpty then endLine
    emit .closeBlock
  leaveOut array
  leaveOut records
  put "\x7d"

def writeTableRecord (key value : NodeId) : Write Unit := do
  let k ← node key
  if ← isNameKey k then
    put (keyText k)
    leaveOut key
    put " = "
  else
    put "["
    part inner key
    put "] = "
  part inner value

/-- Writes an assignment; a function that is assigned to a variable is written as
a definition of that variable. -/
def writeAssignment (kind : AssignmentKind) (expressions destinations : NodeId) : Write Unit := do
  let isLocal := kind == .localDefinition
  let ds ← items destinations
  let es ← items expressions
  let definition ← match ds, es with
    | [d], [e] => do
      match ← node e with
      | .function .. =>
        let simple ← match ← node d with
          | .identifier _ => pure true
          | n => isGlobal n
        pure (if simple then some (d, e) else none)
      | _ => pure none
    | _, _ => pure none
  match definition with
  | some (d, e) =>
    modifyFrame ({ · with functionName := some d, functionLocal := isLocal })
    part inner e
    leaveOut destinations
    leaveOut expressions
  | none =>
    if isLocal then put "local "
    startStatement .assignment
    part inner destinations
    put " = "
    part inner expressions
    endStatement .assignment

def writeBinary (op : BinaryOp) (left right : NodeId) : Write Unit := do
  let wanted := fun (n : Node) => match n.operatorCode? with
    | some c => needsParentheses op.code c
    | none => false
  parenthesized (wanted (← node left)) (part inner left)
  match binarySign op with
  | some s => put s
  | none => throw (.broken "a binary operator has a sign")
  parenthesized (wanted (← node right)) (part inner right)

def writeUnary (op : UnaryOp) (operand : NodeId) : Write Unit := do
  let sign := unarySign op
  unless sign.isEmpty do put sign
  let wanted := match (← node operand).operatorCode? with
    | some c => c < op.code
    | none => false
  parenthesized wanted (part inner operand)

def writeElement (self : Node) (table key : NodeId) : Write Unit := do
  let k ← node key
  let bare ← isNameKey k
  if ← isGlobal self then
    require bare "the key of a global variable is a name"
    leaveOut table
    leaveOut key
    put (keyText k)
  else
    let isConstructor := match ← node table with
      | .table .. => true
      | _ => false
    if !isConstructor && bare then
      part inner table
      put "."
      put (keyText k)
      leaveOut key
    else
      parenthesized isConstructor (part inner table)
      put "["
      part inner key
      put "]"

/-- The table and the name of a method call: the table is also the first argument. -/
def method? (function : Node) (arguments : List NodeId) : Write (Option (NodeId × Node)) := do
  match function, arguments with
  | .element table key, first :: _ =>
    let k ← node key
    if ← isNameKey k then return if table == first then some (table, k) else none
    else return none
  | _, _ => return none

def writeCall (function arguments : NodeId) : Write Unit := do
  let isStatement := (← frame).current == none
  if isStatement then startStatement .call
  let args ← items arguments
  match ← method? (← node function) args with
  | some (table, key) =>
    part inner table
    put ":"
    put (keyText key)
    leaveOut function
    setItems arguments ((← items arguments).drop 1)
  | none => part inner function
  put "("
  part inner arguments
  put ")"
  if isStatement then endStatement .call

def writeIf (condition thenBlock : NodeId) (elseIfs : List NodeId) (elseBlock : NodeId) :
    Write Unit := do
  startStatement .ifElse
  put "if "
  part inner condition
  put " then"
  endLine
  part inner thenBlock
  elseIfs.forM (part inner)
  if (← items elseBlock).isEmpty then leaveOut elseBlock
  else
    put "else"
    endLine
    part inner elseBlock
  put "end"
  endStatement .ifElse

def writeElseIf (condition thenBlock : NodeId) : Write Unit := do
  put "elseif "
  part inner condition
  put " then"
  endLine
  part inner thenBlock

def writeBlock (b : Block) : Write Unit := do
  put s!"--- BLOCK #{b.index} {b.first}-{b.last}, warpins: {b.entries} ---"
  endLine
  b.contents.forM (part inner)
  put s!"--- END OF BLOCK #{b.index} ---"
  endLine
  endLine
  part inner b.exit
  endLine
  endLine

def targetIndex (i : NodeId) : Write Int := return (← block i).index

def writeJump (kind : JumpKind) (target : NodeId) : Write Unit := do
  match kind with
  | .flow => put "FLOW"
  | .jump => put "UNCONDITIONAL JUMP"
  | .other _ => pure ()
  let t ← targetIndex target
  put s!"; TARGET BLOCK #{t}"
  endLine

def writeTest (condition onTrue onFalse : NodeId) (slot : Option Int) : Write Unit := do
  match slot with
  | some k =>
    put s!"slot{k}"
    put " = "
  | none => pure ()
  put "if "
  part inner condition
  put " then"
  endLine
  let t ← targetIndex onTrue
  put s!"JUMP TO BLOCK #{t}"
  endLine
  put "else"
  endLine
  let f ← targetIndex onFalse
  put s!"JUMP TO BLOCK #{f}"
  endLine
  put "end"
  endLine

def writeWays (body wayOut : NodeId) : Write Unit := do
  endLine
  let b ← targetIndex body
  put s!"LOOP BLOCK #{b}"
  endLine
  let w ← targetIndex wayOut
  put s!"GO OUT TO BLOCK #{w}"

def writeIterate (targets controls body wayOut : NodeId) : Write Unit := do
  put "for "
  part inner targets
  put " in "
  part inner controls
  writeWays body wayOut
  endLine

def writeCount (index controls body wayOut : NodeId) : Write Unit := do
  put "for "
  part inner index
  put "="
  part inner controls
  writeWays body wayOut

def writeReturn (values : NodeId) : Write Unit := do
  startStatement .ret
  put "return "
  part inner values
  endStatement .ret

def writeWhile (condition statements : NodeId) : Write Unit := do
  startStatement .whileLoop
  put "while "
  part inner condition
  put " do"
  endLine
  part inner statements
  put "end"
  endStatement .whileLoop

def writeRepeat (condition statements : NodeId) : Write Unit := do
  startStatement .repeatLoop
  put "repeat"
  endLine
  part inner statements
  put "until "
  part inner condition
  endStatement .repeatLoop

def writeFor (kind : StatementKind) (targets : NodeId) (sign : String)
    (expressions statements : NodeId) : Write Unit := do
  startStatement kind
  put "for "
  part inner targets
  put sign
  part inner expressions
  put " do"
  endLine
  part inner statements
  put "end"
  endStatement kind

/-- Writes a list of statements, indented unless it is the outermost one. -/
def writeStatements (xs : List NodeId) : Write Unit := do
  if (← own).frames.length > 1 then emit .openBlock
  modifyOwn fun d => { d with frames := {} :: d.frames }
  xs.forM (part inner)
  modifyOwn fun d => { d with frames := d.frames.drop 1 }
  if (← own).frames.length > 1 then emit .closeBlock

def writeIdentifier (x : Identifier) : Write Unit :=
  match x.kind with
  | .slot => put s!"slot{x.slot}"
  | _ => put (x.name.getD "None")

def writeConstant (kind : ConstantKind) (value : Literal) : Write Unit :=
  match kind, value with
  | .text, .text s => put (textLiteral s)
  | .text, _ => throw .noPart
  | _, v => put (plain v)

/-- Writes a node, given how its parts are written. -/
def writeNode (n : Node) : Write Unit :=
  match n with
  | .absent => throw (.broken "a part of a node is missing")
  | .function as ss _ => writeFunction inner as ss
  | .table a r => writeTable inner a r
  | .arrayRecord v => part inner v
  | .tableRecord k v => writeTableRecord inner k v
  | .assignment k es ds => writeAssignment inner k es ds
  | .binary o l r => writeBinary inner o l r
  | .unary o x => writeUnary inner o x
  | .list .statements xs => writeStatements inner xs
  | .list .records xs => writeRecords inner xs
  | .list _ xs => separated inner (put ", ") xs
  | .identifier x => writeIdentifier x
  | .multres => put "MULTRES"
  | .element t k => writeElement inner n t k
  | .vararg => put "..."
  | .call f as => writeCall inner f as
  | .ifElse c t xs e => writeIf inner c t xs e
  | .elseIf c t => writeElseIf inner c t
  | .block b => writeBlock inner b
  | .jump k t _ => writeJump k t
  | .test c t f s => writeTest inner c t f s
  | .iterate vs cs b w => writeIterate inner vs cs b w
  | .count i cs b w => writeCount inner i cs b w
  | .stop _ => return ()
  | .ret vs => writeReturn inner vs
  | .breakLoop => do
    startStatement .breakLoop
    put "break"
    endStatement .breakLoop
  | .whileLoop c s => writeWhile inner c s
  | .repeatLoop c s => writeRepeat inner c s
  | .numericFor v es s => writeFor inner .numericFor v " = " es s
  | .iteratorFor es is s => writeFor inner .iteratorFor is " in " es s
  | .constant k v => writeConstant k v
  | .primitive .false => put "false"
  | .primitive .true => put "true"
  | .primitive _ => put "nil"

end

def write : Nat → NodeId → Write Unit
  | 0, _ => throw .tooDeep
  | depth + 1, i => do writeNode (write depth) (← node i)

/-- The commands for the statements of a function. -/
def commands (root : NodeId) : Edit (List Command) := do
  match ← node root with
  | .function _ statements _ =>
    let depth := (← get).store.depth
    let ((), d) ← within ({} : Draft) (part (write depth) statements)
    return d.commands.toList
  | _ => throw (.broken "the root of a program is a function")

/-- The text of a program, or as much of it as could be written with the fault. -/
def text (root : NodeId) : Edit (String × Option Fault) := return render (← commands root)

end LuaLift.Lua
