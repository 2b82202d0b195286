import ApiOutline.Module.Declaration

/-!
# Titles

The texts under which declarations are listed: `class Widget`, `function make(a, b?)`,
`Widget#render(target)`, `Widget.count` and `Widget#size=`. They are built from names and
parameter shapes alone.
-/

namespace ApiOutline

namespace Title

/-- The name shown for what has none. -/
def anonymous : String := "<anonymous>"

/-- The name to show; a missing or empty one is replaced. -/
def displayName : Option String → String
  | none => anonymous
  | some name => if name = "" then anonymous else name

/-- A parameter as `...name`, `name?` or `name`. What gathers the rest is never marked
optional. -/
def parameter (p : Parameter) : String :=
  if p.isRest then "..." ++ p.name
  else if p.hasDefault || p.isOptional then p.name ++ "?"
  else p.name

/-- A declaration under its keyword. -/
def keyword (word : String) (name : Option String) : String :=
  word ++ " " ++ displayName name

/-- A call with its parameters. -/
def call (name : Option String) (parameters : List String) : String :=
  displayName name ++ "(" ++ ", ".intercalate parameters ++ ")"

/-- A function under its keyword. -/
def function (name : Option String) (parameters : List String) : String :=
  "function " ++ call name parameters

/-- An assignment to a member. -/
def setter (name : Option String) : String :=
  displayName name ++ "="

/-- What stands between an owner and its member. -/
def joiner (isStatic : Bool) : String :=
  if isStatic then "." else "#"

/-- A member under its owner. -/
def owned (owner member : String) (isStatic : Bool) : String :=
  owner ++ joiner isStatic ++ member

end Title

end ApiOutline
