import ApiOutline.Config.Load

/-!
# Configurations that extend others

The compiler's configuration may extend base configurations, which may extend further ones. The
settings of a base are anchored to its own folder and lie under those of the file that extends it;
of several bases a later one lies over an earlier one. Options of the compiler are merged one by
one, every other setting is taken whole. A file that extends itself, directly or through others,
is taken as empty where it comes back. Only so many files may extend one another in a row, and the
containers in each may be nested less deep than in the one before.
-/

namespace ApiOutline

namespace Config

/-! ### Finding a base -/

/-- `dir` and the folders above it, nearest first; `fuel` bounds how many. -/
def ancestorsWithin : Nat → String → List String
  | 0, dir => [dir]
  | fuel + 1, dir =>
    let parent := Path.dirname dir
    if parent = dir then [dir] else dir :: ancestorsWithin fuel parent

/-- `dir` and the folders above it, nearest first. -/
def ancestors (dir : String) : List String :=
  ancestorsWithin dir.length dir

/-- The paths that a base may have: a path is taken from the folder `dir` with or without `.json`,
and a bare name is looked for among the dependencies of `dir` and of every folder above it. -/
def baseCandidates (value dir : String) : List String :=
  if Text.startsWith value "." || Path.isAbsolute value then
    let base := Path.normalize (Path.join dir value)
    if Text.endsWith base ".json" then [base] else [base, base ++ ".json"]
  else
    (ancestors dir).flatMap fun above =>
      let base := Path.join (Path.join above "node_modules") value
      [base, base ++ ".json", Path.join base "tsconfig.json"]

/-- The file that an entry of `extends` names. -/
def resolveBase (d : Disk) (value dir : String) : Option String :=
  (baseCandidates value dir).find? d.isFile

/-! ### Anchoring the settings of one file -/

/-- The options that hold paths. -/
def pathOptions : List String :=
  ["outDir", "rootDir", "declarationDir"]

/-- The settings that hold lists of paths. -/
def pathLists : List String :=
  ["files", "include", "exclude"]

/-- Makes the path of one option absolute, seen from `dir`. -/
def anchorOption (dir : String) (options : Json.Fields) (name : String) : Json.Fields :=
  match options.get? name with
  | some (.str value) =>
    if value = "" then options else options.put name (.str (Path.normalize (Path.join dir value)))
  | _ => options

/-- Turns the entries of a list from paths seen from `dir` into paths seen from `root`. -/
def anchorEntries (d : Disk) (dir root : String) (entries : List Json) :
    Except Path.Fault (List Json) :=
  entries.mapM fun entry => (d.relative (Path.join dir entry.text) root).map Json.str

/-- Anchors the list of one setting. -/
def anchorList (d : Disk) (dir root : String) (config : Json.Fields) (name : String) :
    Except Path.Fault Json.Fields :=
  match config.get? name with
  | some (.arr entries) =>
    (anchorEntries d dir root entries).map fun es => config.put name (.arr es)
  | _ => .ok config

/-- Anchors the settings of a file in the folder `dir`: the paths of options become absolute, and
the lists of paths are seen from `root`. -/
def anchor (d : Disk) (config : Json.Fields) (dir root : String) :
    Except Path.Fault Json.Fields :=
  let anchored := match config.get? "compilerOptions" with
    | some (.obj options) =>
      config.put "compilerOptions" (.obj (pathOptions.foldl (anchorOption dir) options))
    | _ => config
  if Path.normalize dir = Path.normalize root then .ok anchored
  else pathLists.foldlM (anchorList d dir root) anchored

/-! ### Merging -/

/-- The settings of `child` over those of `base`. -/
def merge (base child : Json.Fields) : Json.Fields :=
  let merged := base.putAll (child.without "compilerOptions")
  match base.get? "compilerOptions", child.get? "compilerOptions" with
  | some (.obj baseOptions), some (.obj childOptions) =>
    merged.put "compilerOptions" (.obj (Json.Fields.putAll baseOptions childOptions))
  | _, none => merged
  | _, some .null => merged
  | _, some options => merged.put "compilerOptions" options

/-! ### The chain -/

/-- The entries of `extends`: one text or a list of texts. -/
def baseNames : Json → Option (List String)
  | .str value => some [value]
  | .arr items => items.mapM Json.asStr?
  | _ => none

/-- Loads the file `path`, which the files of `chain` extend, innermost first, and merges it with
its bases; at most `fuel` files may still extend one another. -/
def loadLevel (d : Disk) (root : String) (strict : Bool) :
    Nat → List String → String → Outcome Failure Json.Fields
  | 0, _, _ => .fail .longChain
  | fuel + 1, chain, path =>
    if chain.contains path then .settle strict (.circular path) []
    else do
      let config ← loadWithin (d.limits.nestingBelow chain.length) d path strict true
      if config.isEmpty then return []
      let dir := Path.dirname path
      let anchored ← .ofPath (anchor d config dir root)
      let own := anchored.without "extends"
      match anchored.get? "extends" with
      | none | some .null => return own
      | some value =>
        match baseNames value with
        | none => .settle strict (.badExtends path) own
        | some names =>
          let merged ← names.foldlM (fun merged name =>
            match resolveBase d name dir with
            | none => Outcome.settle strict (.baseNotFound name path) merged
            | some base => do
              return merge merged (← loadLevel d root strict fuel (path :: chain) base)) []
          return merge merged own

/-- Loads the compiler's configuration and merges it with what it extends. -/
def loadChain (d : Disk) (path : String) (strict : Bool) : Outcome Failure Json.Fields :=
  let start := d.absolute path
  loadLevel d (Path.dirname start) strict (d.limits.chain + 1) [] start

end Config

end ApiOutline
