import ApiOutline.Text.Basic

/-!
# Log notes and their context

A note has a level, comes from one part of the library and is made while some phase of some
package is at work. A context holds the names of these two. Opening a scope puts the old name
aside and closing the innermost scope brings it back, so neither kind of scope disturbs the
other.
-/

namespace ApiOutline

namespace Log

/-- How grave a note is: the greater, the graver. -/
abbrev Level := Int

namespace Level

def debug : Level := 10

def info : Level := 20

def warning : Level := 30

def error : Level := 40

def critical : Level := 50

/-- The levels that have a name of their own, with the name under which they are shown first. -/
def named : List (String × Level) :=
  [("CRITICAL", critical), ("FATAL", critical), ("ERROR", error), ("WARNING", warning),
    ("WARN", warning), ("INFO", info), ("DEBUG", debug), ("NOTSET", 0)]

/-- The name of a level. -/
def name (level : Level) : String :=
  match named.find? fun (_, l) => l == level with
  | some (text, _) => text
  | none => "Level " ++ Text.decimalInt level

/-- The capital of a letter. Outside ASCII only the dotless i and the long s have one in the
names of levels. -/
def capital (c : Char) : Char :=
  if c.toNat = 0x131 then 'I' else if c.toNat = 0x17F then 'S' else c.toUpper

/-- The level that a text names in small or capital letters; any other text means `info`. -/
def ofName (text : String) : Level :=
  (named.lookup (String.ofList (text.toList.map capital))).getD info

end Level

/-- The part of the library that a note comes from. -/
inductive Channel where
  | config
  | parsing
  | declarations
  | classification
  | project
  | extraction
  | packageRun
  | workspaceRun
  deriving DecidableEq

/-- One thing to log. -/
structure Note where
  level : Level
  channel : Channel
  text : String
  deriving DecidableEq

/-- The two kinds of scope. -/
inductive Scope where
  | phase
  | package
  deriving DecidableEq

/-- The names of the phase and the package at work, and the name that each open scope put aside,
innermost first. -/
structure Context where
  phase : String := "-"
  package : String := "-"
  aside : List (Scope × String) := []
  deriving DecidableEq

/-- Opens a scope. -/
def Context.enter (c : Context) (scope : Scope) (name : String) : Context :=
  match scope with
  | .phase => { c with phase := name, aside := (.phase, c.phase) :: c.aside }
  | .package => { c with package := name, aside := (.package, c.package) :: c.aside }

/-- Closes the innermost open scope, if there is one. -/
def Context.leave (c : Context) : Context :=
  match c.aside with
  | [] => c
  | (.phase, name) :: rest => { c with phase := name, aside := rest }
  | (.package, name) :: rest => { c with package := name, aside := rest }

/-- A note with the context it was made in. -/
structure Record where
  note : Note
  phase : String
  package : String
  deriving DecidableEq

/-- Closing a scope undoes its opening. -/
@[simp]
theorem Context.leave_enter (c : Context) (scope : Scope) (name : String) :
    (c.enter scope name).leave = c := by
  cases scope <;> rfl

end Log

end ApiOutline
