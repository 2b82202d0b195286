import ApiOutline.Module.Declaration

/-!
# Exported declarations

Which declarations a module exports. An export statement with a declaration exports what it
declares; one that names another module exports nothing of this one; one with a value exports the
class or function that is the value, or every declaration with the name that is the value; and a
clause exports every declaration with one of the names it lists. A declaration wrapped by
`declare` counts as itself, a variable statement as its declarators. What is exported twice is
listed once, where it is first resolved.
-/

namespace ApiOutline

namespace Exports

open Declaration

/-- The declaration inside an ambient wrapper, or the node itself. -/
def unwrap (n : Node) : Option Node :=
  if n.kind == "ambient_declaration" then
    n.namedChildren.find? fun c => c.kind != "statement_block"
  else some n

/-- The declarators that bind a single name. -/
def namedDeclarators (source : List UInt8) : List Node → Except Utf8.Fault (List Node)
  | [] => .ok []
  | n :: rest =>
    if n.kind == "variable_declarator" then do
      let name ← name? source n
      let kept ← namedDeclarators source rest
      return if name.isSome then n :: kept else kept
    else namedDeclarators source rest

/-- The declarations that a declaration statement introduces. -/
def expand (source : List UInt8) (n : Node) : Except Utf8.Fault (List Node) :=
  match unwrap n with
  | none => .ok []
  | some d =>
    if variableStatementKinds.contains d.kind then namedDeclarators source d.namedChildren
    else .ok [d]

/-- The declaration that a top-level statement makes, exported or not. -/
def declarationOf (statement : Node) : Option Node :=
  if statement.kind == "export_statement" then statement.child? "declaration" else some statement

/-- The declarations that bear a name, each with it. -/
def withNames (source : List UInt8) : List Node → Except Utf8.Fault (List (String × Node))
  | [] => .ok []
  | n :: rest => do
    let name ← name? source n
    let others ← withNames source rest
    return match name with
      | some name => (name, n) :: others
      | none => others

/-- The named top-level declarations of some statements, in source order. -/
def locals (source : List UInt8) : List Node → Except Utf8.Fault (List (String × Node))
  | [] => .ok []
  | statement :: rest =>
    match declarationOf statement with
    | none => locals source rest
    | some d => do
      let named ← withNames source (← expand source d)
      let others ← locals source rest
      return named ++ others

/-- The declarations with the given name. -/
def bearing (index : List (String × Node)) (name : String) : List Node :=
  (index.filter fun entry => entry.1 == name).map Prod.snd

/-- The nodes that hold the local names of the specifiers in a statement's export clauses. -/
def clauseNames (statement : Node) : List Node :=
  (statement.namedChildren.filter fun c => c.kind == "export_clause").flatMap fun clause =>
    (clause.namedChildren.filter fun c => c.kind == "export_specifier").filterMap fun specifier =>
      specifier.child? "name"

/-- The declarations under the names that the given nodes hold. -/
def lookupAll (source : List UInt8) (index : List (String × Node)) :
    List Node → Except Utf8.Fault (List Node)
  | [] => .ok []
  | n :: rest => do
    let found := bearing index (← n.text source)
    let others ← lookupAll source index rest
    return found ++ others

/-- What a statement that exports a value exports. -/
def exportedValue (source : List UInt8) (index : List (String × Node)) (value : Node) :
    Except Utf8.Fault (List Node) :=
  if value.kind == "identifier" then (value.text source).map (bearing index)
  else if classKinds.contains value.kind || functionKinds.contains value.kind then .ok [value]
  else .ok []

/-- The declarations that one export statement exports. -/
def resolve (source : List UInt8) (index : List (String × Node)) (statement : Node) :
    Outcome Utf8.Fault (List Node) :=
  match statement.child? "declaration" with
  | some d => .ofExcept (expand source d)
  | none =>
    match statement.child? "source" with
    | some _ => do
      .log .debug .declarations
        ("Skipping re-export at line " ++ Text.decimal (statement.line source))
      return []
    | none =>
      match statement.child? "value" with
      | some value => .ofExcept (exportedValue source index value)
      | none => .ofExcept (lookupAll source index (clauseNames statement))

/-- The declarations that the export statements among `statements` export, with repeats. -/
def resolveAll (source : List UInt8) (index : List (String × Node)) :
    List Node → Outcome Utf8.Fault (List Node)
  | [] => .ok []
  | statement :: rest =>
    if statement.kind == "export_statement" then do
      let nodes ← resolve source index statement
      let others ← resolveAll source index rest
      return nodes ++ others
    else resolveAll source index rest

/-- The nodes whose key is not among `seen`, each key once. -/
def firstByKey (seen : List (Nat × Nat × String)) : List Node → List Node
  | [] => []
  | n :: rest =>
    if seen.contains n.key then firstByKey seen rest else n :: firstByKey (n.key :: seen) rest

/-- The exported declarations of a module, in the order in which they are first resolved. -/
def list (m : Module) : Outcome Utf8.Fault (List Node) := do
  let statements := m.root.namedChildren
  let index ← .ofExcept (locals m.source statements)
  return firstByKey [] (← resolveAll m.source index statements)

end Exports

end ApiOutline
