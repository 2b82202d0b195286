import ApiOutline.Disk.Basic
import ApiOutline.Entry
import ApiOutline.Failure
import ApiOutline.Json.Writer

/-!
# Listings

The listing of a module shows its entries and what they own, in text or as one JSON document, and
counts what it shows. The text of an entry is printed as soon as it is known, so a failure further
on leaves what came before it; the JSON document is printed whole or not at all.
-/

namespace ApiOutline

/-- A module with the root its name is relative to and the files compiled from it. -/
structure ModuleEntry where
  root : String
  module : Module
  outputs : List String := []

/-- What listings have counted. -/
structure Stats where
  modules : Nat := 0
  entries : Nat := 0
  members : Nat := 0
  parseErrors : Nat := 0
  deriving DecidableEq

namespace Stats

/-- The counts of two listings together. -/
def add (a b : Stats) : Stats :=
  ⟨a.modules + b.modules, a.entries + b.entries, a.members + b.members,
    a.parseErrors + b.parseErrors⟩

/-- The counts as a JSON object. -/
def toJson (s : Stats) : Json :=
  .obj [("modules_listed", .int s.modules), ("top_level_entries", .int s.entries),
    ("member_entries", .int s.members), ("parse_errors", .int s.parseErrors)]

/-- The counts in one line. -/
def text (s : Stats) : String :=
  "ExtractionStats(modules=" ++ Text.decimal s.modules ++ ", entries=" ++ Text.decimal s.entries
    ++ ", members=" ++ Text.decimal s.members ++ ", parse_errors=" ++ Text.decimal s.parseErrors
    ++ ")"

end Stats

/-- The title of an entry and the titles of what it owns. -/
structure Listing.Line where
  title : String
  members : List String
  deriving DecidableEq

/-- The whole listing of a module. -/
structure Listing where
  name : String
  title : String
  source : String
  outputs : List String
  lines : List Listing.Line
  deriving DecidableEq

namespace ModuleEntry

variable (d : Disk) (e : ModuleEntry)

/-- The name of a module is its path seen from the root. -/
def name : Except Path.Fault String :=
  d.relative e.module.path e.root

def title : Except Path.Fault String :=
  (e.name d).map ("module " ++ ·)

/-- The top-level entries. -/
def entries : Outcome Failure (List Entry) :=
  e.module.entries.mapError .encoding

/-- The line of one entry. -/
def line (entry : Entry) : Outcome Failure Listing.Line := do
  let source := e.module.source
  let owned ← (entry.members source).mapError .encoding
  let members ← .ofDecoded (owned.mapM (Member.title source))
  let title ← .ofDecoded (entry.title source)
  return ⟨title, members⟩

/-- The lines of some entries; each is handed to `emit` before the next is made. -/
def linesOf (emit : Listing.Line → Outcome Failure Unit) :
    List Entry → Outcome Failure (List Listing.Line)
  | [] => .ok []
  | entry :: rest => do
    let line ← e.line entry
    emit line
    let others ← linesOf emit rest
    return line :: others

/-- The lines of a module. -/
def lines (emit : Listing.Line → Outcome Failure Unit) : Outcome Failure (List Listing.Line) := do
  e.linesOf emit (← e.entries)

/-- What the listing of a module with the given lines counts. -/
def count (lines : List Listing.Line) : Stats where
  modules := 1
  entries := lines.length
  members := (lines.flatMap fun line => line.members).length
  parseErrors := if e.module.hasErrors then 1 else 0

/-- The listing of a module and what it counts. -/
def describe : Outcome Failure (Listing × Stats) := do
  let name ← .ofPath (e.name d)
  let title ← .ofPath (e.title d)
  let outputs ← .ofPath (e.outputs.mapM fun path => d.relative path e.root)
  let lines ← e.lines fun _ => .ok ()
  return (⟨name, title, e.module.path, outputs, lines⟩, e.count lines)

end ModuleEntry

namespace Listing

/-- A line as a JSON object. -/
def Line.toJson (line : Line) : Json :=
  .obj [("title", .str line.title), ("members", .arr (line.members.map .str))]

/-- A listing as a JSON object. -/
def toJson (l : Listing) : Json :=
  .obj [("module", .str l.name), ("title", .str l.title), ("source_file_path", .str l.source),
    ("output_file_paths", .arr (l.outputs.map .str)), ("entries", .arr (l.lines.map Line.toJson))]

/-- The texts of a line: the title, then the titles of the members, indented. -/
def Line.texts (line : Line) : List String :=
  (line.title ++ "\n") :: line.members.map fun member => "  " ++ member ++ "\n"

/-- The texts of a line in one. -/
def Line.text (line : Line) : String :=
  line.title ++ "\n" ++ String.join (line.members.map fun member => "  " ++ member ++ "\n")

/-- How the JSON document of a listing is written. -/
def style : Json.Style where
  sorted := false
  ascii := false

end Listing

namespace ModuleEntry

variable (d : Disk) (e : ModuleEntry)

/-- Prints the listing of a module under a label and counts it. -/
def printText (label : String) : Outcome Failure Stats := do
  .print (label ++ ": " ++ e.module.path ++ "\n")
  let lines ← e.lines fun line => .printEach line.texts
  return e.count lines

/-- Prints the listing of a module as a JSON document and counts it. -/
def printJson : Outcome Failure Stats := do
  let (listing, stats) ← e.describe d
  .print (listing.toJson.write Listing.style ++ "\n")
  return stats

/-- Prints the listing of a module. -/
def print (asJson : Bool) (label : String) : Outcome Failure Stats :=
  if asJson then e.printJson d else e.printText label

end ModuleEntry

end ApiOutline
