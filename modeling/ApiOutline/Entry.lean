import ApiOutline.Module.Exports
import ApiOutline.Title

/-!
# Entries

An entry stands for one documented declaration. A module has one entry for each exported class,
function, variable, interface and type alias; a class or an interface owns one entry for each
method and accessor, one for each property that can only be read, and a getter followed by a
setter for every other property. Entries own nothing below that. What is documented nowhere is
dropped with a note.
-/

namespace ApiOutline

/-- The variants of top-level entry. -/
inductive Entry.Variant where
  | classEntry
  | function
  | constant
  | interface
  | type
  deriving DecidableEq

/-- The variants of owned entry. -/
inductive Member.Variant where
  | method
  | getter
  | setter
  deriving DecidableEq

/-- A top-level entry. -/
structure Entry where
  variant : Entry.Variant
  node : Node

/-- An entry owned by the entry of `owner`. -/
structure Member where
  variant : Member.Variant
  owner : Node
  node : Node

/-- The name under which a node is shown. -/
def Node.displayName (source : List UInt8) (n : Node) : Except Utf8.Fault String :=
  (Declaration.name? source n).map Title.displayName

/-- The parameters of a node as they are shown. -/
def Node.parameterTexts (source : List UInt8) (n : Node) : Except Utf8.Fault (List String) :=
  (Declaration.parameters source n).map (List.map Title.parameter)

namespace Entry

/-- The word before the name in the title of an entry. -/
def Variant.keyword : Variant → String
  | .classEntry => "class"
  | .function => "function"
  | .constant => "const"
  | .interface => "interface"
  | .type => "type"

/-- The variant of entry for a kind of declaration, if it has one. -/
def Variant.ofKind? : Declaration.Kind → Option Variant
  | .classDecl => some .classEntry
  | .function => some .function
  | .variable => some .constant
  | .interface => some .interface
  | .typeAlias => some .type
  | _ => none

def name (source : List UInt8) (e : Entry) : Except Utf8.Fault String :=
  e.node.displayName source

/-- The title of an entry; that of a function shows its parameters. -/
def title (source : List UInt8) (e : Entry) : Except Utf8.Fault String := do
  let name ← e.name source
  match e.variant with
  | .function => return Title.function (some name) (← e.node.parameterTexts source)
  | variant => return Title.keyword variant.keyword (some name)

/-- The entry for an exported declaration, if there is one. -/
def ofDeclaration (source : List UInt8) (n : Node) : Outcome Utf8.Fault (Option Entry) := do
  match Variant.ofKind? (← .ofExcept (Declaration.kind source n)) with
  | some variant => return some ⟨variant, n⟩
  | none =>
    .log .debug .classification ("Dropping unsupported declaration '" ++ n.kind ++ "' at line "
      ++ Text.decimal (n.line source))
    return none

end Entry

namespace Member

/-- The variants of entry for a member of the given kind. -/
def Variant.ofKind (readonly : Bool) : Declaration.Kind → List Variant
  | .method => [.method]
  | .getAccessor => [.getter]
  | .setAccessor => [.setter]
  | .property => if readonly then [.getter] else [.getter, .setter]
  | _ => []

def name (source : List UInt8) (m : Member) : Except Utf8.Fault String :=
  m.node.displayName source

/-- How the member is used: called, read or assigned. -/
def callText (source : List UInt8) (m : Member) : Except Utf8.Fault String := do
  let name ← m.name source
  match m.variant with
  | .method => return Title.call (some name) (← m.node.parameterTexts source)
  | .getter => return name
  | .setter => return Title.setter (some name)

/-- The title of an owned entry. -/
def title (source : List UInt8) (m : Member) : Except Utf8.Fault String := do
  let owner ← m.owner.displayName source
  return Title.owned owner (← m.callText source) (Declaration.isStatic m.node)

/-- The entries that `owner` owns for the member `n`. -/
def ofNode (source : List UInt8) (owner n : Node) : Outcome Utf8.Fault (List Member) := do
  match Variant.ofKind (Declaration.isReadonly n) (← .ofExcept (Declaration.kind source n)) with
  | [] =>
    let ownerName ← .ofExcept (owner.displayName source)
    .log .debug .classification ("Dropping unsupported member '" ++ n.kind ++ "' of " ++ ownerName
      ++ " at line " ++ Text.decimal (n.line source))
    return []
  | variants => return variants.map (⟨·, owner, n⟩)

/-- The entries that `owner` owns for the members `nodes`, in order. -/
def ofNodes (source : List UInt8) (owner : Node) : List Node → Outcome Utf8.Fault (List Member)
  | [] => .ok []
  | n :: rest => do
    let owned ← ofNode source owner n
    let others ← ofNodes source owner rest
    return owned ++ others

/-- The entries that an owned entry owns: there are none. -/
def members (_ : Member) : Outcome Utf8.Fault (List Member) :=
  .ok []

end Member

/-- The entries that an entry owns; only classes and interfaces own any. -/
def Entry.members (source : List UInt8) (e : Entry) : Outcome Utf8.Fault (List Member) :=
  match e.variant with
  | .classEntry | .interface => do
    Member.ofNodes source e.node (← .ofExcept (Declaration.members source e.node))
  | _ => .ok []

/-- The entries for the declarations `nodes`, in order. -/
def Entry.ofDeclarations (source : List UInt8) : List Node → Outcome Utf8.Fault (List Entry)
  | [] => .ok []
  | n :: rest => do
    let entry ← Entry.ofDeclaration source n
    let others ← Entry.ofDeclarations source rest
    return entry.toList ++ others

/-- The top-level entries of a module. -/
def Module.entries (m : Module) : Outcome Utf8.Fault (List Entry) := do
  Entry.ofDeclarations m.source (← Exports.list m)

end ApiOutline
