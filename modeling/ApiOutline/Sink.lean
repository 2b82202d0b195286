import ApiOutline.Disk.Spelling
import ApiOutline.Trace

/-!
# Sinks

Printed texts go to a sink, which takes each of them whole or refuses it and says why. One that
writes UTF-8 refuses a text with a lone surrogate. Of what a computation does to the outside, only
what comes before the first refused text is done.
-/

namespace ApiOutline

/-- Where printed texts go. -/
structure Sink where
  /-- Why a text is refused, if it is. -/
  refusal? : String → Option String

namespace Sink

/-- The sink that takes every text. -/
def lenient : Sink where
  refusal? _ := none

/-- The first lone surrogates of a text that stand side by side, and their position; `position`
many symbols come before. -/
def firstLone (position : Nat) : List Symbol → Option (Nat × List Nat)
  | [] => none
  | .lone unit :: rest => some (position, unit :: Disk.unitRun rest)
  | _ :: rest => firstLone (position + 1) rest

/-- The sink that writes UTF-8. -/
def utf8 : Sink where
  refusal? text :=
    (firstLone 0 (Text.symbols text)).map fun (position, units) =>
      Disk.unwritableText position units

/-- Why an event cannot be done, which is only where a text is refused. -/
def complaint? (out : Sink) : Event → Option String
  | .print text => out.refusal? text
  | _ => none

/-- Where events are cut off: those before the first text that is refused, and why it is. -/
def cut (out : Sink) : List Event → Option (List Event × String)
  | [] => none
  | event :: rest =>
    match out.complaint? event with
    | some complaint => some ([], complaint)
    | none => (out.cut rest).map fun (before, complaint) => (event :: before, complaint)

end Sink

end ApiOutline
