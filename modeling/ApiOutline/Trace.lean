import ApiOutline.Log.Basic

/-!
# Traces

What a computation does to the outside, in order: it prints text, makes log notes, and opens and
closes the scopes that the notes belong to.
-/

namespace ApiOutline

/-- One thing done to the outside. -/
inductive Event where
  | print (text : String)
  | note (n : Log.Note)
  | enter (scope : Log.Scope) (name : String)
  | leave
  deriving DecidableEq

namespace Log

/-- What an event does to a context. -/
def Context.step (c : Context) : Event → Context
  | .enter scope name => c.enter scope name
  | .leave => c.leave
  | .note _ => c
  | .print _ => c

/-- The context after a list of events. -/
def Context.after (c : Context) (events : List Event) : Context :=
  events.foldl Context.step c

/-- The notes among the events, each with its context. -/
def records (c : Context) : List Event → List Record
  | [] => []
  | .note n :: events => ⟨n, c.phase, c.package⟩ :: records c events
  | event :: events => records (c.step event) events

end Log

/-- The text printed by the events. -/
def printed (events : List Event) : String :=
  String.join (events.map fun
    | .print text => text
    | _ => "")

namespace Log

/-! ### Traces in a row -/

theorem Context.after_append (c : Context) (xs ys : List Event) :
    c.after (xs ++ ys) = (c.after xs).after ys := by
  simp [Context.after]

end Log

end ApiOutline
