import ApiOutline.Json.Basic
import ApiOutline.Outcome
import ApiOutline.Path
import ApiOutline.Text.Utf8
import ApiOutline.Tree

/-!
# Source modules

A source module is a file of source text together with its syntax tree. Its nodes are seen with
the kind of their parent, since the meaning of a member depends on the body it stands in. The
text of a node is the span of bytes it covers, read as UTF-8.
-/

namespace ApiOutline

/-- A parsed source file. -/
structure Module where
  path : String
  source : List UInt8
  tree : Tree

/-- A node of a module and the kind of its parent; the root has none. -/
structure Node where
  tree : Tree
  parent : Option String := none

namespace Node

def kind (n : Node) : String :=
  n.tree.kind

/-- The children that are more than tokens. -/
def namedChildren (n : Node) : List Node :=
  n.tree.namedChildren.map (⟨·, some n.kind⟩)

/-- All children, tokens too. -/
def children (n : Node) : List Node :=
  n.tree.children.map (⟨·, some n.kind⟩)

/-- The first child that fills the given field. -/
def child? (n : Node) (field : String) : Option Node :=
  (n.tree.child? field).map (⟨·, some n.kind⟩)

/-- What tells two nodes apart: their span and kind. -/
def key (n : Node) : Nat × Nat × String :=
  (n.tree.label.start, n.tree.label.stop, n.kind)

/-- The text that a node covers. -/
def text (source : List UInt8) (n : Node) : Except Utf8.Fault String :=
  Utf8.decode ((source.take n.tree.label.stop).drop n.tree.label.start)

/-- The line on which a node begins, counted from one. -/
def line (source : List UInt8) (n : Node) : Nat :=
  (source.take n.tree.label.start).count 0x0A + 1

end Node

namespace Module

/-- The node of the whole module. -/
def root (m : Module) : Node :=
  ⟨m.tree, none⟩

/-- Whether the module has damaged source. -/
def hasErrors (m : Module) : Bool :=
  m.tree.hasError

/-- Takes in a source with its tree and warns of damage in it. `tsx` says that the source is read
with markup elements allowed. -/
def ofTree {ε : Type} (path : String) (source : List UInt8) (tree : Tree) (tsx : Bool) :
    Outcome ε Module := do
  .log .debug .parsing
    ("Created tree-sitter " ++ (if tsx then "TSX" else "TypeScript") ++ " parser")
  .log .debug .parsing ("Parsed " ++ Text.decimal source.length ++ " bytes of TypeScript code")
  if tree.hasError then
    .log .warning .parsing
      ("File " ++ path ++ " contains " ++ Text.decimal tree.faultCount ++ " syntax errors")
  return ⟨path, source, tree⟩

/-- The complaint about a source that is given as a JSON value and not as bytes. -/
def notBytes (value : Json) : String :=
  "Source must be bytes, got " ++ value.kindName

/-- Takes in a source that is no file; the extension of its path decides on markup. -/
def ofSource {ε : Type} (path : String) (source : List UInt8) (tree : Tree) : Outcome ε Module :=
  ofTree path source tree (Path.extension path == ".tsx")

end Module

end ApiOutline
