import ApiOutline.Config.Extends
import ApiOutline.Project.Query
import ApiOutline.Sources

/-!
# Projects

A project is a package at a root folder: the package file names its entry point, and the
compiler's configuration says which files are sources and where their compiled files go. All
answers are computed from the disk on demand, and the configuration, the list of sources and the
parsed modules are computed once.
-/

namespace ApiOutline

/-- A package root and whether problems with its configuration stop the work. -/
structure Project where
  root : String
  strict : Bool

namespace Project

/-- The project at `root`. Unless `strict` is given, the flag of the environment decides. -/
def openAt (d : Disk) (root : String) (strict : Option Bool) (flag : Option String) : Project :=
  ⟨d.absolute root, strict.getD (Config.strictMode flag false)⟩

variable (p : Project) (d : Disk)

/-- The path of the package file. -/
def packagePath : String :=
  Path.join p.root "package.json"

/-- The path of the compiler's configuration. -/
def compilerPath : String :=
  Path.join p.root "tsconfig.json"

/-- What shows a project in a message. -/
def text : String :=
  "Project(root=" ++ Text.quoted p.root ++ ")"

/-! ### Configuration -/

/-- The fields of the package file. -/
def package : Query Json.Fields :=
  .cached Cache.package (fun cache a => { cache with package := some a })
    (.lift (Config.load d p.packagePath p.strict false))

/-- The compiler's configuration with what it extends. -/
def compiler : Query Json.Fields :=
  .cached Cache.compiler (fun cache a => { cache with compiler := some a })
    (.lift (Config.loadChain d p.compilerPath p.strict))

/-- The options of the compiler. -/
def options : Query Json.Fields := do
  .lift (Config.compilerOptions (← p.compiler d) p.strict)

/-- The path of the entry point, if the package has one. -/
def mainFile : Query (Option String) := do
  .lift (Config.mainFile (← p.package d) p.root p.strict)

/-- The folder that an option names. -/
def optionFolder (name : String) : Query (Option String) := do
  match (← p.options d).get? name with
  | some (.str value) =>
    return if value = "" then none else some (Path.normalize (Path.join p.root value))
  | _ => return none

/-- The folder of compiled files. -/
def outDir : Query (Option String) :=
  p.optionFolder d "outDir"

/-- The folder of generated declarations. -/
def declarationDir : Query (Option String) :=
  p.optionFolder d "declarationDir"

/-! ### Sources -/

/-- The path of an entry of `files`, if a file is there; otherwise a warning. -/
def fileEntry (entry : Json) : Outcome Failure (List String) :=
  let path := Path.normalize (Path.join p.root entry.text)
  if d.isFile path then .ok [path]
  else do
    .log .warning .project ("tsconfig 'files' entry not found: " ++ entry.text)
    return []

/-- Whether a file that an entry of `include` finds is kept. -/
def keeps (exclude : List String) (path : String) : Except Path.Fault Bool :=
  (d.relative path p.root).map fun way =>
    !Sources.coveredByAny way exclude && !Sources.throughSkipped way

/-- The files among `paths` that are kept, in order. -/
def kept (exclude : List String) : List String → Except Path.Fault (List String)
  | [] => .ok []
  | path :: rest => do
    let keep ← p.keeps d exclude path
    let others ← kept exclude rest
    return if keep then path :: others else others

/-- The files that an entry of `include` finds. -/
def includeEntry (exclude : List String) (entry : Json) : Outcome Failure (List String) := do
  let pattern := Sources.expandInclude d p.root entry.text
  let pattern ← .ofExcept ((Pattern.read d.limits.segments pattern).mapError .pattern)
  let found ← .ofExcept ((d.glob p.root pattern).mapError .disk)
  .ofPath (p.kept d exclude found)

/-- What all entries of a list contribute, in order. -/
def gather (f : Json → Outcome Failure (List String)) : List Json → Outcome Failure (List String)
  | [] => .ok []
  | entry :: rest => do
    let here ← f entry
    let others ← gather f rest
    return here ++ others

/-- The items of a setting that is a list. -/
def listSetting (config : Json.Fields) (name : String) : Option (List Json) :=
  match config.get? name with
  | some (.arr items) => some items
  | _ => none

/-- The sources that the lists of a configuration name, sorted; `none` when it has neither a list
of files nor one of patterns. -/
def configuredSources (config : Json.Fields) : Outcome Failure (Option (List String)) :=
  match listSetting config "files", listSetting config "include" with
  | none, none => .ok none
  | files, patterns => do
    let exclude := ((listSetting config "exclude").getD []).map Json.text
    let named ← gather (p.fileEntry d) (files.getD [])
    let found ← gather (p.includeEntry d exclude) (patterns.getD [])
    return some (Sources.sorted ((named ++ found).eraseDups.filter Sources.isSource))

/-- The sources of the project: those that its configuration names, or all below its root but for
its output folders. -/
def loadSources : Query (List String) := do
  let paths ← match ← .lift (p.configuredSources d (← p.compiler d)) with
    | some paths => pure paths
    | none => do
      let out ← p.outDir d
      let declarations ← p.declarationDir d
      .lift (Sources.discover d p.root (out.toList ++ declarations.toList))
  .lift (.log .info .project ("Project " ++ p.root ++ " has " ++ Text.decimal paths.length
    ++ " TypeScript source files"))
  return paths

/-- The paths of the sources, sorted. -/
def sources : Query (List String) :=
  .cached Cache.sources (fun cache a => { cache with sources := some a }) (p.loadSources d)

/-- The root of the layout of sources: the folder that the option names, or the deepest one above
all sources that are compiled. -/
def rootDir : Query String := do
  match ← p.optionFolder d "rootDir" with
  | some folder => return folder
  | none =>
    match (← p.sources d).filter fun path => !Sources.isDeclaration path with
    | [] => return p.root
    | inputs => return Path.common (inputs.map Path.dirname)

/-! ### Modules -/

/-- Reads and takes in the source at an absolute path. -/
def loadModule (path : String) : Outcome Failure Module :=
  match d.read path with
  | .error fault => do
    if fault.cause = .notFound then .log .error .parsing ("File not found: " ++ path)
    else if !fault.cause.isMisspelt then
      .log .error .parsing ("Error reading file " ++ path ++ ": " ++ fault.message)
    .fail (.disk fault)
  | .ok file => do
    let m ← Module.ofTree path file.bytes (file.tree.getD default) (Text.endsWith path ".tsx")
    .log .info .parsing ("Successfully parsed file: " ++ path)
    return m

/-- The module at a path, absolute or seen from the root; `none` when it is no source. -/
def module (path : String) : Query (Option Module) := do
  let full := Path.normalize (Path.join p.root path)
  if (← p.sources d).contains full then
    let m ← Query.cached (fun cache => cache.modules.lookup full)
      (fun cache m => { cache with modules := (full, m) :: cache.modules })
      (.lift (loadModule d (d.absolute full)))
    return some m
  else
    .lift (.log .debug .project ("No source module at " ++ full))
    return none

/-- The answers of a query for all paths, in order. -/
def forAll {α : Type} (f : String → Query α) : List String → Query (List α)
  | [] => .ok []
  | path :: rest => do
    let here ← f path
    let others ← forAll f rest
    return here :: others

/-- The modules of all sources. -/
def modules : Query (List (Option Module)) := do
  forAll (p.module d) (← p.sources d)

/-! ### Compiled files -/

/-- The extension of the declarations generated beside a compiled file. -/
def declarationExtension (compiled : String) : String :=
  if compiled = ".mjs" then ".d.mts" else if compiled = ".cjs" then ".d.cts" else ".d.ts"

/-- The path of a generated file: in its folder, laid out as in the layout of sources, or beside
the source. -/
def generated (folder : Option String) (base way ext : String) : String :=
  Path.normalize ((folder.elim base fun f => Path.join f way) ++ ext)

/-- The files that the compiler generates for a source. -/
def outputs (source : String) : Query (List String) :=
  if Sources.isDeclaration source then .ok []
  else
    let (base, ext) := Path.splitExtension source
    match Sources.compiledExtensions.lookup ext with
    | none => .ok []
    | some compiled => do
      let options ← p.options d
      let preserve := match options.get? "jsx" with
        | some (.str "preserve") => ext == ".tsx"
        | _ => false
      let compiled := if preserve then ".jsx" else compiled
      let way ← .lift (.ofPath (d.relative base (← p.rootDir d)))
      let out ← p.outDir d
      let program := generated out base way compiled
      if (options.get? "declaration").any Json.isTruthy
          || (options.get? "composite").any Json.isTruthy then
        let declarations ← p.declarationDir d
        return [program, generated (declarations <|> out) base way (declarationExtension compiled)]
      else return [program]

end Project

end ApiOutline
