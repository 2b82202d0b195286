import ApiOutline.Log.Session
import ApiOutline.Run.Package
import ApiOutline.Run.Workspace
import ApiOutline.Snapshot

/-!
# The command line

`package` lists one package and `workspace` all packages of a manifest. The files are taken from a
snapshot on standard input, a JSON object with the absolute path `root`, the `files` below it, the
`limit` for work on what is nested, the value `flag` of the environment, and the identity `run_id`
and the `time` of the run. Listings go to standard output as UTF-8, the log to standard error, and
the report of a workspace to its path.
-/

namespace ApiOutline

namespace CommandLine

/-- What standard input says about the surroundings of a run. -/
structure Surroundings where
  disk : Disk
  flag : Option String
  runId : String
  time : String

/-- What is shown of a text: a lone surrogate is shown by its escape. -/
def shown (text : String) : String :=
  String.join ((Text.symbols text).map fun a =>
    match a with
    | .char c => String.singleton c
    | a => Text.escapeCode a.code)

/-- The text that came in as a string. -/
def taken (text : String) : String :=
  Text.ofChars text.toList

/-- Reads the surroundings. -/
def Surroundings.read (text : String) : Except String Surroundings := do
  match ← (Json.readWithin text.length text).mapError Json.Fault.message with
  | .obj fields =>
    let field (name fallback : String) : String :=
      ((Json.Fields.get? fields name).bind Json.asStr?).getD fallback
    let limit := match Json.Fields.get? fields "limit" with
      | some (.int n) => n.toNat
      | _ => 900
    let files := match Json.Fields.get? fields "files" with
      | some (.obj files) => files
      | _ => []
    return {
      disk := Snapshot.diskOf (.uniform limit) (field "root" "/") files
      flag := (Json.Fields.get? fields "flag").bind Json.asStr?
      runId := field "run_id" "-"
      time := field "time" "-" }
  | _ => throw "the snapshot is not an object"

/-- The name under which a part of the library logs. -/
def channelName : Log.Channel → String
  | .config => "config"
  | .parsing => "parsing"
  | .declarations => "declarations"
  | .classification => "classification"
  | .project => "project"
  | .extraction => "extraction"
  | .packageRun => "package"
  | .workspaceRun => "workspace"

/-- The log lines of a trace at the given level. -/
def logLines (s : Surroundings) (level : Log.Level) (trace : List Event) : List String :=
  let session : Log.Session := { Log.Session.configure {} level with runId := s.runId }
  (Log.records {} trace).flatMap fun r =>
    let context : Log.Context := { phase := r.phase, package := r.package }
    { session with context }.lines s.time ⟨r.note.level, channelName r.note.channel, r.note.text⟩

/-- Presents what a run printed and logged. -/
def present {α : Type} (s : Surroundings) (level : Log.Level) (outcome : Outcome Failure α) :
    IO Unit := do
  IO.print (shown (printed outcome.trace))
  for line in logLines s level outcome.trace do
    IO.eprintln (shown line)

/-- Ends a run that failed. -/
def stop (failure : Failure) : IO UInt32 := do
  IO.eprintln (shown failure.message)
  return 1

/-- Ends a run whose arguments are not followed. -/
def refuse (refusal : Arguments.Refusal) : IO UInt32 := do
  if let some complaint := refusal.complaint? then
    IO.eprintln complaint
  return refusal.exitCode.toUInt32

/-- Lists one package. -/
def package (s : Surroundings) (args : List String) : IO UInt32 := do
  match PackageRun.Settings.ofArguments s.flag args with
  | .error refusal => refuse refusal
  | .ok settings =>
    let outcome := PackageRun.run .utf8 s.disk settings
    present s settings.level outcome
    match outcome.result with
    | .ok code => return code.toUInt32
    | .error failure => stop failure

/-- Lists a workspace and writes its report. -/
def workspace (s : Surroundings) (args : List String) : IO UInt32 := do
  match WorkspaceRun.Settings.ofArguments s.flag args with
  | .error refusal => refuse refusal
  | .ok settings =>
    let outcome := WorkspaceRun.run .utf8 s.disk settings s.runId s.time
    present s settings.level outcome
    match outcome.result with
    | .error failure => stop failure
    | .ok result =>
      if let some path := result.report then
        if let .ok file := result.disk.read path then
          IO.FS.createDirAll (shown (Path.dirname path))
          IO.FS.writeBinFile (shown path) ⟨file.bytes.toArray⟩
      return result.code.toUInt32

end CommandLine

end ApiOutline

/-- Runs the command that the first argument names. -/
def main (args : List String) : IO UInt32 := do
  let text ← (← IO.getStdin).readToEnd
  let args := args.map ApiOutline.CommandLine.taken
  match ApiOutline.CommandLine.Surroundings.read (ApiOutline.CommandLine.taken text) with
  | .error complaint =>
    IO.eprintln complaint
    return 2
  | .ok surroundings =>
    match args with
    | "package" :: rest => ApiOutline.CommandLine.package surroundings rest
    | "workspace" :: rest => ApiOutline.CommandLine.workspace surroundings rest
    | _ =>
      IO.eprintln "usage: package|workspace ARGUMENTS"
      return 2
