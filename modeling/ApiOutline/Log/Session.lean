import ApiOutline.Log.Basic

/-!
# Log sessions

A session holds what decides where a note goes and how it looks: the least level that is let
through, the handlers, the identity of the run and the scope context. Until a session is
configured a handler writes the bare message; once configured it writes one line with the fields
of the context, which a filter on the handler supplies.
-/

namespace ApiOutline

namespace Log

/-- How a handler lays out a line. -/
inductive Layout where
  | bare
  | fields
  deriving DecidableEq

/-- A handler with its layout and the number of context filters on it. -/
structure Handler where
  layout : Layout := .bare
  filters : Nat := 0
  deriving DecidableEq

/-- The state of logging. -/
structure Session where
  level : Level := Level.warning
  handlers : List Handler := []
  runId : String := "-"
  context : Context := {}

/-- A handler with a context filter. -/
def Handler.withFilter (h : Handler) : Handler :=
  if h.filters = 0 then { h with filters := 1 } else h

/-- Sets the level and gives every handler the layout with fields and a context filter. A session
without handlers gets one. -/
def Session.configure (s : Session) (level : Level) : Session :=
  let handlers : List Handler := match s.handlers with
    | [] => [{ layout := .fields }]
    | hs => hs.map fun h => { h with layout := .fields }
  { s with level := level, handlers := handlers.map Handler.withFilter }

/-- Names the run; without a name, or with an empty one, the run is named `fresh`. -/
def Session.setRunId (s : Session) (fresh : String) (runId : Option String) : Session :=
  { s with runId := match runId with
      | some id => if id = "" then fresh else id
      | none => fresh }

/-- Opens a scope. -/
def Session.enter (s : Session) (scope : Scope) (name : String) : Session :=
  { s with context := s.context.enter scope name }

/-- Closes the innermost open scope. -/
def Session.leave (s : Session) : Session :=
  { s with context := s.context.leave }

/-- A message on its way to the handlers. -/
structure Message where
  level : Level
  logger : String
  text : String

/-- The name shown for a logger; the one without a name is the root. -/
def loggerName (logger : String) : String :=
  if logger = "" then "root" else logger

/-- The line a handler writes at `time`. The layout with fields needs a filter to supply them. -/
def Session.line? (s : Session) (time : String) (m : Message) (h : Handler) : Option String :=
  match h.layout with
  | .bare => some m.text
  | .fields =>
    if h.filters = 0 then none
    else some (time ++ " | " ++ m.level.name ++ " | run_id=" ++ s.runId ++ " | phase="
      ++ s.context.phase ++ " | package=" ++ s.context.package ++ " | " ++ loggerName m.logger
      ++ " | " ++ m.text)

/-- Whether a message of this level is let through. -/
def Session.admits (s : Session) (level : Level) : Bool :=
  decide (0 < level ∧ s.level ≤ level)

/-- The lines that the handlers write for a message. Without handlers a warning or worse is
written bare. -/
def Session.lines (s : Session) (time : String) (m : Message) : List String :=
  if !s.admits m.level then []
  else
    match s.handlers with
    | [] => if Level.warning ≤ m.level then [m.text] else []
    | hs => hs.filterMap (s.line? time m)

/-- The text that the handlers write for a message; each ends its line. -/
def Session.written (s : Session) (time : String) (m : Message) : String :=
  String.join ((s.lines time m).map (· ++ "\n"))

end Log

end ApiOutline
