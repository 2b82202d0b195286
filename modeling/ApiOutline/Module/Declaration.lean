import ApiOutline.Module

/-!
# Declarations

Questions about single declaration nodes: their kind, name, members, modifiers and parameters.
The answers depend on the node, the kind of its parent and the text under its name alone.
-/

namespace ApiOutline

/-- The kinds of declaration that are told apart. -/
inductive Declaration.Kind where
  | classDecl
  | function
  | variable
  | interface
  | typeAlias
  | method
  | getAccessor
  | setAccessor
  | property
  | other
  deriving DecidableEq

/-- The shape of one parameter. -/
structure Parameter where
  name : String
  isRest : Bool := false
  isOptional : Bool := false
  hasDefault : Bool := false
  deriving DecidableEq

namespace Declaration

/-! ### Kinds of nodes -/

def classKinds : List String :=
  ["class_declaration", "abstract_class_declaration", "class"]

def functionKinds : List String :=
  ["function_declaration", "generator_function_declaration", "function_signature",
    "function_expression", "function", "generator_function"]

/-- Statements that hold one declarator for each variable. -/
def variableStatementKinds : List String :=
  ["lexical_declaration", "variable_declaration"]

def interfaceBodyKinds : List String :=
  ["interface_body", "object_type"]

def bodyKinds : List String :=
  "class_body" :: interfaceBodyKinds

def methodKinds : List String :=
  ["method_definition", "method_signature", "abstract_method_signature"]

def propertyKinds : List String :=
  ["public_field_definition", "property_signature"]

def parameterKinds : List String :=
  ["required_parameter", "optional_parameter", "rest_parameter"]

/-- Whether a node stands in the body of an interface. -/
def inInterface (n : Node) : Bool :=
  n.parent.any interfaceBodyKinds.contains

/-! ### Names and kinds -/

/-- The declared name of a node. A declarator that takes a value apart has none, and an empty
name counts as none. -/
def name? (source : List UInt8) (n : Node) : Except Utf8.Fault (Option String) :=
  match n.child? "name" with
  | none => .ok none
  | some nameNode =>
    if n.kind == "variable_declarator" && nameNode.kind != "identifier" then .ok none
    else (nameNode.text source).map fun text => if text = "" then none else some text

/-- Whether a method is the constructor of its class. -/
def isConstructor (source : List UInt8) (n : Node) : Except Utf8.Fault Bool :=
  if inInterface n then .ok false
  else (name? source n).map (· == some "constructor")

/-- The kind of a method by the accessor keyword it carries. -/
def accessorKind (n : Node) : Kind :=
  if n.tree.hasToken "get" then .getAccessor
  else if n.tree.hasToken "set" then .setAccessor
  else .method

/-- The kind of a declaration. A constructor is none of the kinds that are told apart. -/
def kind (source : List UInt8) (n : Node) : Except Utf8.Fault Kind :=
  if classKinds.contains n.kind then .ok .classDecl
  else if functionKinds.contains n.kind then .ok .function
  else if n.kind == "variable_declarator" then .ok .variable
  else if n.kind == "interface_declaration" then .ok .interface
  else if n.kind == "type_alias_declaration" then .ok .typeAlias
  else if methodKinds.contains n.kind then
    (isConstructor source n).map fun c => if c then .other else accessorKind n
  else if propertyKinds.contains n.kind then .ok .property
  else .ok .other

/-! ### Members and modifiers -/

/-- The body of a class or interface. -/
def body? (n : Node) : Option Node :=
  n.child? "body" <|> n.namedChildren.find? fun c => bodyKinds.contains c.kind

/-- The members declared directly in the body of a class or interface, in order. -/
def members (source : List UInt8) (n : Node) : Except Utf8.Fault (List Node) :=
  (kind source n).map fun k =>
    if k = .classDecl ∨ k = .interface then (body? n).elim [] Node.namedChildren else []

/-- Whether a member belongs to the class itself. Members of interfaces never do. -/
def isStatic (n : Node) : Bool :=
  !inInterface n && n.tree.hasToken "static"

/-- Whether a member can only be read. -/
def isReadonly (n : Node) : Bool :=
  n.tree.hasToken "readonly"

/-! ### Parameters -/

/-- The node whose children are the parameters of `n`. -/
def parameterList (n : Node) : Node :=
  (n.child? "parameters" <|> n.namedChildren.find? fun c => c.kind == "formal_parameters").getD n

/-- The pattern that a parameter binds. -/
def parameterPattern (n : Node) : Node :=
  (n.child? "pattern" <|> n.namedChildren.head?).getD n

/-- The shape of a parameter node. -/
def describeParameter (source : List UInt8) (n : Node) : Except Utf8.Fault Parameter :=
  let pattern := parameterPattern n
  let nameNode :=
    if pattern.kind == "rest_pattern" then pattern.namedChildren.head?.getD pattern else pattern
  (nameNode.text source).map fun name =>
    { name
      isRest := n.kind == "rest_parameter" || pattern.kind == "rest_pattern"
      isOptional := n.kind == "optional_parameter"
      hasDefault := (n.child? "value").isSome }

/-- The parameters of a function or method, in order. -/
def parameters (source : List UInt8) (n : Node) : Except Utf8.Fault (List Parameter) :=
  ((parameterList n).namedChildren.filter fun c => parameterKinds.contains c.kind).mapM
    (describeParameter source)

end Declaration

end ApiOutline
