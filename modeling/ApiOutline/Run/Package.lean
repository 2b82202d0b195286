import ApiOutline.Arguments
import ApiOutline.Project.Entries

/-!
# Listing one package

The command that lists the main module of a package, or another of its modules. A module that is
not there is a normal outcome. In strict mode a problem with the configuration ends the run with
code 2; any other failure ends it with code 1, one of the sink included.
-/

namespace ApiOutline

namespace PackageRun

/-- What to list and how. -/
structure Settings where
  root : String
  /-- The module to list; the main one when it is missing or empty. -/
  module : Option String
  json : Bool
  strict : Bool
  level : Log.Level

/-- The arguments of the command. -/
def spec : Arguments.Spec where
  values := ["--module", "--log-level"]
  switches := ["--json", "--strict-config"]
  single := true

/-- The settings that the arguments ask for; `flag` is the flag of the environment. -/
def Settings.ofArguments (flag : Option String) (args : List String) :
    Except Arguments.Refusal Settings := do
  let requests ← Arguments.parse spec args
  let level ← Arguments.logLevel requests
  return {
    root := (Arguments.single? requests).getD "."
    module := Arguments.lastValue requests "--module"
    json := requests.contains (.switch "--json")
    strict := requests.contains (.switch "--strict-config") || Config.strictMode flag false
    level }

/-- The module that is asked for by name. -/
def Settings.named? (s : Settings) : Option String :=
  s.module.filter (· ≠ "")

/-- Finds the entry of the module to list. -/
def resolve (d : Disk) (s : Settings) : Outcome Failure (Option ModuleEntry) :=
  let project : Project := ⟨d.absolute s.root, s.strict⟩
  let query := match s.named? with
    | some path => project.moduleEntry d path
    | none => project.mainModuleEntry d
  .within .phase "resolve" (query {}).2

/-- Lists the entry that was found, and gives the exit code. -/
def list (out : Sink) (d : Disk) (s : Settings) : Option ModuleEntry → Outcome Failure Nat
  | none => do
    (Outcome.print (s.named?.elim "Main module not found\n" fun path =>
      "Module not found: " ++ path ++ "\n")).through out
    return 0
  | some entry => do
    let label := if s.named?.isSome then "Module" else "Main module"
    let stats ← .within .phase "list" ((entry.print d s.json label).through out)
    .log .info .packageRun ("Listing complete: " ++ stats.text)
    return 0

/-- Finds and lists the module. A problem with the configuration that comes up while the module is
looked for ends the run. -/
def attempt (out : Sink) (d : Disk) (s : Settings) : Outcome Failure Nat := do
  let found ← (((resolve d s).andThen fun entry => .ok (.inl entry)).recover fun failure =>
    match failure with
    | .config problem => do
      .log .error .packageRun ("Configuration error: " ++ problem.message)
      return .inr 2
    | failure => .fail failure : Outcome Failure (Option ModuleEntry ⊕ Nat))
  match found with
  | .inl entry => list out d s entry
  | .inr code => return code

/-- The whole run, which ends with an exit code whatever happens. -/
def run (out : Sink) (d : Disk) (s : Settings) : Outcome Failure Nat :=
  (attempt out d s).recover fun failure => do
    match failure with
    | .disk ⟨.notFound, _⟩ => .log .error .packageRun ("File error: " ++ failure.message)
    | _ => .log .error .packageRun ("Listing failed: " ++ failure.message)
    return 1

end PackageRun

end ApiOutline
