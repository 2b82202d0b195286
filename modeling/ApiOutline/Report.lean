import ApiOutline.Disk.Change
import ApiOutline.Json.Writer
import ApiOutline.Listing

/-!
# Run reports

A report is one JSON object in a file named for the run. The identity and the time of the run are
added where the report lacks them.
-/

namespace ApiOutline

namespace Report

/-- How a run over some packages went. -/
inductive Status where
  | failed
  | partialSuccess
  | success
  deriving DecidableEq

def Status.text : Status → String
  | .failed => "failed"
  | .partialSuccess => "partial_success"
  | .success => "success"

/-- The status of a run in which `succeeded` of `enabled` packages succeeded. -/
def finalStatus (enabled succeeded : Int) : Status :=
  if succeeded ≤ 0 then .failed
  else if succeeded < enabled then .partialSuccess
  else .success

/-- Adds a field that is not there. -/
def withDefault (fields : Json.Fields) (name value : String) : Json.Fields :=
  if (fields.get? name).isSome then fields else fields.put name (.str value)

/-- The report with the identity and the time of the run. -/
def stamp (report : Json.Fields) (runId time : String) : Json.Fields :=
  withDefault (withDefault report "run_id" runId) "timestamp_utc" time

/-- How a report is written. -/
def style : Json.Style where
  sorted := true
  ascii := true

/-- The text of a report. -/
def text (report : Json.Fields) (runId time : String) : String :=
  (Json.obj (stamp report runId time)).write style

/-- The path of the report of a run. -/
def pathIn (folder runId : String) : String :=
  Path.join folder (runId ++ ".json")

/-- Writes a report below `folder`, which is made if need be, and gives its path. A report that is
nested too deep is found out only when its file is open. -/
def save (d : Disk) (report : Json.Fields) (runId time folder : String) :
    Except Disk.Fault (Disk × String) := do
  let made ← (d.makeFolders folder).result
  let path := pathIn folder runId
  let after ← made.write path { bytes := Utf8.encode (text report runId time) }
  if d.limits.writing < (Json.obj (stamp report runId time)).nesting then .error ⟨.tooDeep, path⟩
  else return (after, path)

end Report

end ApiOutline
