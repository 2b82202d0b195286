import ApiOutline.Arguments
import ApiOutline.Manifest
import ApiOutline.Project.Entries
import ApiOutline.Report

/-!
# Listing a workspace

The command that lists every enabled package of a manifest and writes a report. A package that
fails is recorded as such; the others are listed all the same, unless the run is told to stop at
the first failure.
-/

namespace ApiOutline

namespace WorkspaceRun

/-- What to list and how. -/
structure Settings where
  manifest : String
  /-- Where the report goes; the manifest decides when it is missing or empty. -/
  reportDir : Option String
  strict : Bool
  continueOnError : Bool
  level : Log.Level

/-- The arguments of the command. -/
def spec : Arguments.Spec where
  values := ["--manifest-path", "--report-dir", "--log-level"]
  switches := ["--strict-config", "--continue-on-package-error", "--fail-fast"]
  single := false

/-- Whether failures are passed over: the last switch about it decides. -/
def continues (requests : List Arguments.Request) : Bool :=
  requests.foldl (fun current request =>
    if request = .switch "--continue-on-package-error" then true
    else if request = .switch "--fail-fast" then false
    else current) true

/-- The settings that the arguments ask for; `flag` is the flag of the environment. -/
def Settings.ofArguments (flag : Option String) (args : List String) :
    Except Arguments.Refusal Settings := do
  let requests ← Arguments.parse spec args
  match Arguments.lastGiven requests "--manifest-path" with
  | none => throw .misuse
  | some given =>
    let level ← Arguments.logLevel requests
    match given with
    | none => throw .noManifest
    | some manifest =>
      return {
        manifest
        reportDir := Arguments.lastValue requests "--report-dir"
        strict := requests.contains (.switch "--strict-config") || Config.strictMode flag false
        continueOnError := continues requests
        level }

/-! ### One package -/

/-- The entries of the named modules, and the names under which there is no module. -/
def findModules (p : Project) (d : Disk) :
    List String → Query (List ModuleEntry × List String)
  | [] => .ok ([], [])
  | path :: rest => do
    let entry ← p.moduleEntry d path
    let (found, missing) ← findModules p d rest
    return match entry with
      | some entry => (entry :: found, missing)
      | none => (found, path :: missing)

/-- The entries that a package is to be listed by, and what was not found. -/
def resolve (p : Project) (d : Disk) (modules : List String) :
    Query (List ModuleEntry × List String) :=
  match modules with
  | [] => do
    match ← p.mainModuleEntry d with
    | some entry => return ([entry], [])
    | none => return ([], ["<main>"])
  | _ => findModules p d modules

/-- Prints the listings of some modules, and counts them together. -/
def printAll (d : Disk) : List ModuleEntry → Outcome Failure Stats
  | [] => .ok {}
  | entry :: rest => do
    let stats ← entry.print d false "Module"
    return stats.add (← printAll d rest)

/-- Prints the block of a package. -/
def printBlock (d : Disk) (package : Manifest.Package) (found : List ModuleEntry) :
    Outcome Failure Stats := do
  .print ("== " ++ package.name ++ "\n")
  if found.isEmpty then
    .print (if package.modules.isEmpty then "Main module not found\n" else "No modules found\n")
  printAll d found

/-- A list of texts as a JSON array. -/
def textArray (texts : List String) : Json :=
  .arr (texts.map .str)

/-- The section of the report on the look at a package root. -/
def summaryJson (s : Config.Summary) : Json :=
  .obj [("root", .str s.root), ("strict", .bool s.strict),
    ("required_files", textArray s.required), ("missing_files", textArray s.missing)]

/-- Lists one package and gives its section of the report. -/
def processPackage (out : Sink) (d : Disk) (manifestPath : String) (strict : Bool)
    (package : Manifest.Package) : Outcome Failure Json.Fields := do
  let root := Manifest.packageRoot d manifestPath package
  let strict := package.strict.getD strict
  let summary ← .within .phase (package.name ++ "_validate")
    (Config.validate d root Config.requiredFiles strict)
  let project : Project := ⟨d.absolute root, strict⟩
  let (found, missing) ← .within .phase (package.name ++ "_resolve")
    (resolve project d package.modules {}).2
  let stats ← .within .phase (package.name ++ "_list") ((printBlock d package found).through out)
  let names ← .ofPath (found.mapM (ModuleEntry.name d))
  return [("name", .str package.name), ("root", .str root), ("status", .str "success"),
    ("config", summaryJson summary), ("modules", textArray names),
    ("missing_modules", textArray missing), ("stats", stats.toJson)]

/-- The section of the report on a package that failed. -/
def failedSection (package : Manifest.Package) (failure : Failure) : Json.Fields :=
  [("name", .str package.name), ("status", .str "failed"), ("error", .str failure.message)]

/-- The section of one package, and whether it succeeded. -/
def packageSection (out : Sink) (d : Disk) (manifestPath : String) (strict : Bool)
    (package : Manifest.Package) : Outcome Failure (Json.Fields × Bool) :=
  .within .package package.name
    (((processPackage out d manifestPath strict package).andThen fun fields =>
      .ok (fields, true)).recover fun failure => do
        .log .error .workspaceRun ("Package processing failed: package=" ++ package.name
          ++ " error=" ++ failure.message)
        return (failedSection package failure, false))

/-! ### All packages -/

/-- The sections of the packages, each with whether it succeeded, up to the first failure unless
failures are passed over. -/
def packageSections (out : Sink) (d : Disk) (manifestPath : String)
    (strict continueOnError : Bool) :
    List Manifest.Package → Outcome Failure (List (Json.Fields × Bool))
  | [] => .ok []
  | package :: rest => do
    let part ← packageSection out d manifestPath strict package
    if part.2 || continueOnError then
      return part :: (← packageSections out d manifestPath strict continueOnError rest)
    else return [part]

/-- The report on a manifest's packages and its status. -/
def execute (out : Sink) (d : Disk) (manifest : Manifest) (manifestPath : String)
    (strict continueOnError : Bool) : Outcome Failure (Json.Fields × Report.Status) := do
  let enabled := manifest.packages.filter Manifest.Package.enabled
  let sections ← packageSections out d manifestPath strict continueOnError enabled
  let status := Report.finalStatus enabled.length (sections.filter Prod.snd).length
  return ([("workspace_name", .str manifest.workspace),
    ("packages", .arr (sections.map fun s => .obj s.1)), ("status", .str status.text)], status)

/-- What a run leaves: its exit code, the disk, and the path of the report if it wrote one. -/
structure Result where
  code : Nat
  disk : Disk
  report : Option String

/-- Whether a failure to load a manifest is one of the manifest itself. -/
def isInvalid : Failure → Bool
  | .manifest _ | .encoding _ => true
  | .json fault => !fault.isTooDeep
  | .unreadable (.senseless _) => true
  | .disk fault => fault.cause = .notFound || fault.cause.isMisspelt
  | _ => false

/-- The whole run. The report is named for the run. A manifest that is invalid ends the run with
code 2, a report with status `failed` with code 1. -/
def run (out : Sink) (d : Disk) (s : Settings) (runId time : String) : Outcome Failure Result :=
  match Manifest.load d s.manifest with
  | .error failure =>
    if isInvalid failure then do
      .log .error .workspaceRun ("Invalid manifest: " ++ failure.message)
      return ⟨2, d, none⟩
    else .fail failure
  | .ok manifest => do
    let (report, status) ← execute out d manifest s.manifest s.strict s.continueOnError
    let folder := (s.reportDir.filter (· ≠ "")).getD manifest.reportDir
    let (d, path) ← .ofExcept ((Report.save d report runId time folder).mapError .disk)
    .log .info .workspaceRun
      ("Run report written to " ++ path ++ " (status=" ++ status.text ++ ")")
    return ⟨if status = .failed then 1 else 0, d, some path⟩

end WorkspaceRun

end ApiOutline
