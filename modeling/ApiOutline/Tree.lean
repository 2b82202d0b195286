/-!
# Syntax trees

The tree that a source file was parsed into. Each node has a kind, the span of bytes it covers,
and the field it fills in its parent, if any; tokens such as keywords and brackets are nodes
without a name of their own. A parser that met damaged source leaves nodes of kind `ERROR` and
nodes for what was missing.
-/

namespace ApiOutline

/-- What a node says about itself. -/
structure Tree.Label where
  kind : String
  start : Nat
  stop : Nat
  named : Bool
  missing : Bool := false
  /-- The field filled in the parent, empty for none. -/
  field : String := ""
  deriving DecidableEq, Inhabited

/-- A node with its children in source order. -/
inductive Tree where
  | node (label : Tree.Label) (children : List Tree)
  deriving Inhabited

namespace Tree

def label : Tree → Label
  | .node l _ => l

def children : Tree → List Tree
  | .node _ cs => cs

def kind (t : Tree) : String :=
  t.label.kind

/-- The children that are more than tokens. -/
def namedChildren (t : Tree) : List Tree :=
  t.children.filter fun c => c.label.named

/-- The first child that fills the given field. -/
def child? (t : Tree) (field : String) : Option Tree :=
  t.children.find? fun c => c.label.field == field

/-- Whether a token of the given kind stands among the children. -/
def hasToken (t : Tree) (kind : String) : Bool :=
  t.children.any fun c => !c.label.named && c.kind == kind

/-- Whether the node itself marks damage. -/
def isFault (t : Tree) : Bool :=
  t.kind == "ERROR" || t.label.missing

mutual

/-- Whether the node or any node below it marks damage. -/
def hasError : Tree → Bool
  | .node l cs => (l.kind == "ERROR" || l.missing) || anyError cs

/-- Whether damage is marked in any of the trees. -/
def anyError : List Tree → Bool
  | [] => false
  | t :: ts => hasError t || anyError ts

end

mutual

/-- How many nodes a tree has. -/
def size : Tree → Nat
  | .node _ cs => sizes cs + 1

/-- How many nodes some trees have together. -/
def sizes : List Tree → Nat
  | [] => 0
  | t :: ts => size t + sizes ts

end

theorem sizes_append (ts us : List Tree) : sizes (ts ++ us) = sizes ts + sizes us := by
  induction ts with
  | nil => simp [sizes]
  | cons t ts ih => simp [sizes, ih, Nat.add_assoc]

/-- Counts the nodes that mark damage in the trees still to visit. Below a node without damage
there is nothing to count, so its children are not visited. -/
def countFaults : List Tree → Nat
  | [] => 0
  | .node l cs :: rest =>
    let t := Tree.node l cs
    (if t.isFault then 1 else 0) + countFaults ((if t.hasError then cs else []) ++ rest)
termination_by ts => sizes ts
decreasing_by
  rw [sizes_append]
  split <;> simp only [sizes, size] <;> omega

/-- How many nodes of a tree mark damage. -/
def faultCount (t : Tree) : Nat :=
  countFaults [t]

mutual

/-- The nodes of a tree, each before its children, with the kind of its parent. -/
def preorder (parent : Option String) : Tree → List (Tree × Option String)
  | .node l cs => (.node l cs, parent) :: preorderAll (some l.kind) cs

/-- The nodes of some trees with one parent. -/
def preorderAll (parent : Option String) : List Tree → List (Tree × Option String)
  | [] => []
  | t :: ts => preorder parent t ++ preorderAll parent ts

end

end Tree

end ApiOutline
