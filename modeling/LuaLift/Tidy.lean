import LuaLift.Tree.Constructor

/-! # Tidying a structured tree

Assignments to the fields of a table that follow its constructor move into the
constructor, and an `else` that holds an `if` only becomes an `elseif`. -/
namespace LuaLift.Tidy
open Tree Pass

/-- Moves assignments to elements of `table` into its constructor, from the first
statement on and as long as possible. Gives the statements that stay. -/
def fillConstructor (table constructor : NodeId) : List NodeId → Edit (List NodeId)
  | [] => return []
  | statement :: rest => do
    let stay := statement :: rest
    match ← node statement with
    | .assignment _ expressions destinations =>
      let ds ← items destinations
      if ds.length > 1 then return stay
      let destination ← firstItem destinations
      match ← node destination with
      | .element base key =>
        unless ← equal base table do return stay
        match ← items expressions with
        | [value] =>
          if ← mentions [value] table then return stay
          insertEntry constructor key value
          fillConstructor table constructor rest
        | _ => throw (.broken "an assignment to a field has one value")
      | _ => return stay
    | _ => return stay

/-- Fills the constructors among statements. The statements left after each one are
fewer than before, so as much `fuel` as there are statements suffices. -/
def foldAssignments : Nat → List NodeId → Edit (List NodeId)
  | _, [] => return []
  | 0, statements => return statements
  | fuel + 1, statement :: rest => do
    let rest ← match ← node statement with
      | .assignment _ expressions destinations => do
        let value ← firstItem expressions
        match ← node value with
        | .table .. =>
          match ← items destinations with
          | [table] => fillConstructor table value rest
          | _ => throw (.broken "a constructor is assigned to one variable")
        | _ => pure rest
      | _ => pure rest
    return statement :: (← foldAssignments fuel rest)

/-- Turns an `else` with nothing but an `if` into an `elseif`. -/
def flattenElse (i condition thenBlock : NodeId) (elseIfs : List NodeId) (elseBlock : NodeId) :
    Edit Unit := do
  match ← items elseBlock with
  | [only] =>
    match ← node only with
    | .ifElse condition' thenBlock' elseIfs' elseBlock' =>
      let branch ← add (.elseIf condition' thenBlock')
      setNode i (.ifElse condition thenBlock (elseIfs ++ branch :: elseIfs') elseBlock')
    | _ => return ()
  | _ => return ()

def visitor : Visitor Unit where
  enter i := do
    match ← node i with
    | .list .statements xs => setItems i (← foldAssignments xs.length xs)
    | _ => return ()
  leave i := do
    match ← node i with
    | .ifElse c t xs e => flattenElse i c t xs e
    | _ => return ()

def tidy (root : NodeId) : Edit Unit := walkTree visitor root

end LuaLift.Tidy
