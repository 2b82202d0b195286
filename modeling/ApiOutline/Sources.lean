import ApiOutline.Failure

/-!
# Source files

Which files are sources, how they are found below a folder, and how the patterns of a
configuration are read. A walk leaves out hidden folders, the folders that hold dependencies and
build results, and those it is told to leave out, and fails where the others lie too deep. A folder
whose path is too long is entered like any other, but nothing can be seen in it.
-/

namespace ApiOutline

namespace Sources

/-- The extensions of sources, each with the extension of the program compiled from it. -/
def compiledExtensions : List (String × String) :=
  [(".ts", ".js"), (".tsx", ".js"), (".mts", ".mjs"), (".cts", ".cjs")]

/-- Whether a path has the extension of a source. -/
def isSource (p : String) : Bool :=
  (compiledExtensions.lookup (Path.extension p)).isSome

/-- Whether a path is that of a source which only declares and is never compiled. -/
def isDeclaration (p : String) : Bool :=
  [".d.ts", ".d.mts", ".d.cts"].any (Text.endsWith p)

/-- The folders that hold no sources of their own. -/
def skippedFolders : List String :=
  ["node_modules", "dist", "build", "coverage", "__pycache__"]

/-! ### Walking a folder -/

/-- Whether a walk enters the folder `name` at the path `p`. -/
def enters (excluded : List String) (name p : String) : Bool :=
  !Text.startsWith name "." && !skippedFolders.contains name && !excluded.contains p

mutual

/-- The sources at `p`, where the item called `name` stands. A link counts unless it leads to a
folder, and is not followed. -/
def found (d : Disk) (excluded : List String) (name p : String) : Item → List String
  | .folder entries =>
    if enters excluded name p && !Disk.isOverlong p then foundIn d excluded p entries else []
  | .file _ => if isSource name then [p] else []
  | .link _ => if isSource name && !d.isFolder p then [p] else []

/-- The sources among and below the entries of the folder `p`. -/
def foundIn (d : Disk) (excluded : List String) (p : String) : List (String × Item) → List String
  | [] => []
  | (name, item) :: rest =>
    found d excluded name (Path.join p name) item ++ foundIn d excluded p rest

end

mutual

/-- How many folders, one inside the other, a walk enters at `p`, where the item called `name`
stands. -/
def depth (excluded : List String) (name p : String) : Item → Nat
  | .folder entries =>
    if !enters excluded name p then 0
    else if Disk.isOverlong p then 1
    else depthIn excluded p entries + 1
  | _ => 0

/-- How many folders, one inside the other, a walk enters below the folder `p`. -/
def depthIn (excluded : List String) (p : String) : List (String × Item) → Nat
  | [] => 0
  | (name, item) :: rest =>
    max (depth excluded name (Path.join p name) item) (depthIn excluded p rest)

end

/-- Texts in increasing order. -/
def sorted (texts : List String) : List String :=
  texts.mergeSort Text.precedes

/-- The sources below a folder, sorted; the folders `excluded` are left out. -/
def discover (d : Disk) (folder : String) (excluded : List String) :
    Outcome Failure (List String) := do
  let start := d.absolute folder
  let entries ← .ofExcept ((d.scan start).mapError .disk)
  let excluded := excluded.map d.absolute
  if d.limits.walk < depthIn excluded start entries then .fail (.disk ⟨.tooDeep, start⟩)
  let all := foundIn d excluded start entries
  .log .debug .project
    ("Found " ++ Text.decimal all.length ++ " TypeScript files in " ++ start)
  return sorted all

/-! ### Patterns of a configuration -/

/-- An entry that names a folder stands for everything below it. -/
def expandInclude (d : Disk) (root pattern : String) : String :=
  let trimmed := Text.trimEnd pattern '/'
  if !Wildcard.hasMark trimmed && d.isFolder (Path.join root trimmed) then trimmed ++ "/**/*"
  else trimmed

/-- Whether a pattern covers a relative path: it matches it, names a folder above it, or matches
it once the parts `**/` are struck out. -/
def covers (pattern path : String) : Bool :=
  let trimmed := Text.trimEnd pattern '/'
  Wildcard.isMatch trimmed path || Text.startsWith path (trimmed ++ "/")
    || (Text.contains trimmed "**/" && Wildcard.isMatch (Text.erase trimmed "**/") path)

/-- Whether some pattern covers a relative path. -/
def coveredByAny (path : String) (patterns : List String) : Bool :=
  patterns.any fun pattern => covers pattern path

/-- Whether a relative path goes through a folder that holds no sources of its own. -/
def throughSkipped (path : String) : Bool :=
  (Path.segments path).dropLast.any skippedFolders.contains

end Sources

end ApiOutline
