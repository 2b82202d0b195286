import ApiOutline.Config.Problem
import ApiOutline.Disk.Glob
import ApiOutline.Manifest.Problem
import ApiOutline.Outcome
import ApiOutline.Sink

/-!
# Failures

Why a computation of the library ends without a value: one case for each kind of cause.
-/

namespace ApiOutline

/-- Why there is no value. -/
inductive Failure where
  | config (problem : Config.Problem)
  /-- Too many configurations extend one another. -/
  | longChain
  | manifest (problem : Manifest.Problem)
  | disk (fault : Disk.Fault)
  | encoding (fault : Utf8.Fault)
  | json (fault : Json.Fault)
  | path (fault : Path.Fault)
  | pattern (fault : Pattern.Fault)
  /-- A manifest in another notation than JSON that gave no document. -/
  | unreadable (complaint : Complaint)
  /-- A text that the sink refuses. -/
  | refused (complaint : String)
  deriving DecidableEq

/-- The wording of a failure. -/
def Failure.message : Failure → String
  | .config problem => problem.message
  | .longChain => "maximum recursion depth exceeded while calling a Python object"
  | .manifest problem => problem.message
  | .disk fault => fault.message
  | .encoding fault => fault.message
  | .json fault => fault.message
  | .path fault => fault.message
  | .pattern fault => fault.message
  | .unreadable complaint => complaint.name
  | .refused complaint => complaint

namespace Outcome

variable {α : Type}

/-- A result whose failure is one of encoding. -/
def ofDecoded (x : Except Utf8.Fault α) : Outcome Failure α :=
  ofExcept (x.mapError .encoding)

/-- A result whose failure is one between paths. -/
def ofPath (x : Except Path.Fault α) : Outcome Failure α :=
  ofExcept (x.mapError .path)

/-- The same computation with what it prints handed to `out`, which ends it at the first text that
is refused. It is meant for a computation that opens no scope, since none would be closed. -/
def through (out : Sink) (x : Outcome Failure α) : Outcome Failure α :=
  match out.cut x.trace with
  | none => x
  | some (before, complaint) => ⟨before, .error (.refused complaint)⟩

/-- Settles a problem with a configuration: in strict mode it is a failure, otherwise it is logged
and `fallback` is taken. -/
def settle (strict : Bool) (problem : Config.Problem) (fallback : α) : Outcome Failure α :=
  if strict then fail (.config problem)
  else do
    log .warning .config problem.warning
    return fallback

end Outcome

end ApiOutline
