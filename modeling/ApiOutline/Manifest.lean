import ApiOutline.Failure
import ApiOutline.Text.Blank

/-!
# Workspace manifests

A manifest names a workspace and lists its packages, each with a root folder and, if wanted, the
modules to list. Values are taken by their texts, stripped of blanks at both ends; names, roots
and module paths must not be blank then, and no two packages have one name. A value that has no text
is refused where its text is needed.
-/

namespace ApiOutline

namespace Manifest

/-- One package of a workspace. Without modules its main module is listed. -/
structure Package where
  name : String
  root : String
  modules : List String := []
  enabled : Bool := true
  strict : Option Bool := none
  deriving DecidableEq

end Manifest

/-- A workspace. -/
structure Manifest where
  workspace : String
  packages : List Manifest.Package
  reportDir : String
  deriving DecidableEq

namespace Manifest

/-- Where reports go unless the manifest says otherwise. -/
def defaultReportDir : String := "output/run_reports"

/-- The text of a value. -/
def textOf (value : Document) : Except Problem String :=
  match value.text? with
  | some text => .ok text
  | none => .error .tooManyDigits

/-- The stripped text of a field, empty when the field is missing. -/
def fieldText (fields : List (Document × Document)) (name : String) : Except Problem String :=
  match Document.get? fields name with
  | some value => (textOf value).map Text.strip
  | none => .ok ""

/-- The module paths in a list, none of which is blank. -/
def moduleTexts (package : String) : List Document → Except Problem (List String)
  | [] => .ok []
  | item :: rest => do
    let text := Text.strip (← textOf item)
    if text = "" then throw (.emptyModule package)
    return text :: (← moduleTexts package rest)

/-- The module paths of a package; none are wanted when the field is missing or null. -/
def modulesOf (package : String) : Option Document → Except Problem (List String)
  | none | some .null => .ok []
  | some (.list items) => moduleTexts package items
  | some _ => .error (.modulesNotList package)

/-- The package that an entry of the manifest describes. -/
def Package.ofFields (fields : List (Document × Document)) : Except Problem Package := do
  let name ← fieldText fields "name"
  let root ← fieldText fields "root"
  if name = "" then .error .noPackageName
  else if root = "" then .error (.noRoot name)
  else
    (modulesOf name (Document.get? fields "modules")).map fun modules =>
      { name, root, modules
        enabled := (Document.get? fields "enabled").elim true Document.isTruthy
        strict := match Document.get? fields "strict" with
          | none | some .null => none
          | some value => some value.isTruthy }

/-- The packages that entries describe, with names not among `seen`. -/
def packagesOf (seen : List String) : List Document → Except Problem (List Package)
  | [] => .ok []
  | .map fields :: rest => do
    let package ← Package.ofFields fields
    if seen.contains package.name then throw (.duplicate package.name)
    let others ← packagesOf (package.name :: seen) rest
    return package :: others
  | _ :: _ => .error .packageNotObject

/-- The folder for reports that fields give. -/
def reportDirOf (fields : List (Document × Document)) : Except Problem String :=
  match Document.get? fields "report_dir" with
  | some value => textOf value
  | none => .ok defaultReportDir

/-- The manifest that a document describes. -/
def ofDocument : Document → Except Problem Manifest
  | .map fields => do
    let workspace ← fieldText fields "workspace_name"
    if workspace = "" then .error .noWorkspaceName
    else
      match Document.get? fields "packages" with
      | some (.list (first :: rest)) => do
        let packages ← packagesOf [] (first :: rest)
        return { workspace, packages, reportDir := ← reportDirOf fields }
      | _ => .error .noPackages
  | _ => .error .notObject

/-- The document in the manifest file at `path`. A file whose extension is `.json`, in small or
capital letters, holds JSON. -/
def readDocument (d : Disk) (path : String) : Except Failure Document := do
  let path := Path.tidy path
  match ← (d.probe path).mapError Failure.disk with
  | some (.file file) =>
    let text ← file.text.mapError Failure.encoding
    if Text.lowerAscii (Path.suffix path) = ".json" then
      return Document.ofJson (← (Json.readWithin d.limits.nesting text).mapError Failure.json)
    else (file.document.getD (.ok .null)).mapError Failure.unreadable
  | _ => throw (.manifest (.fileNotFound path))

/-- Loads and checks the manifest at `path`. -/
def load (d : Disk) (path : String) : Except Failure Manifest := do
  (ofDocument (← readDocument d path)).mapError Failure.manifest

/-- The path of a package's root; a relative one is seen from the folder that the
manifest really stands in. -/
def packageRoot (d : Disk) (manifestPath : String) (package : Package) : String :=
  if Path.isAbsolute package.root then Path.tidy package.root
  else
    Path.tidy (Path.join (Path.dirname (d.real (Path.tidy manifestPath))) package.root)

end Manifest

end ApiOutline
