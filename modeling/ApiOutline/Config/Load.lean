import ApiOutline.Failure
import ApiOutline.Json.Comments
import ApiOutline.Text.Blank

/-!
# Loading configuration files

A configuration file holds one JSON object; the compiler's configuration may also hold comments
and commas after last items. Whatever is wrong with the text of a file is a problem to be settled,
and so is a file that is not there. A file that cannot be read at all is a failure in either mode.
-/

namespace ApiOutline

namespace Config

/-- The words that switch a flag of the environment on. -/
def onWords : List String :=
  ["1", "true", "yes", "on"]

/-- Whether strict mode is on: as the flag of the environment says, or by default. -/
def strictMode (flag : Option String) (default : Bool) : Bool :=
  match flag with
  | none => default
  | some raw => onWords.contains (Text.lowerAscii (Text.strip raw))

/-- The object in the text of a configuration file, in which containers are nested at most `room`
deep. -/
def parse (room : Nat) (path text : String) (strict comments : Bool) :
    Outcome Failure Json.Fields :=
  let plain := if comments then Json.stripComments text else text
  if Text.isBlankText plain then .settle strict (.emptyFile path) []
  else
    match Json.readWithin room plain with
    | .ok (.obj fields) => .ok fields
    | .ok value => .settle strict (.notObject path value.kindName) []
    | .error (.malformed problem offset line column) =>
      .settle strict (.malformed path (.malformed problem offset line column)) []
    | .error fault => .fail (.json fault)

/-- Loads a configuration file in which containers are nested at most `room` deep; `comments` says
whether comments are allowed in it. -/
def loadWithin (room : Nat) (d : Disk) (path : String) (strict comments : Bool) :
    Outcome Failure Json.Fields :=
  match d.read path with
  | .error ⟨.notFound, _⟩ => .settle strict (.missingFile path) []
  | .error fault => .fail (.disk fault)
  | .ok file =>
    match file.text with
    | .error fault => .fail (.encoding fault)
    | .ok text => parse room path text strict comments

/-- Loads a configuration file by itself. -/
def load (d : Disk) (path : String) (strict comments : Bool) : Outcome Failure Json.Fields :=
  loadWithin d.limits.nesting d path strict comments

/-- The path of the entry point that a package declares, if it declares one. -/
def mainFile (package : Json.Fields) (root : String) (strict : Bool) :
    Outcome Failure (Option String) :=
  match package.get? "main" with
  | none | some .null => do
    .log .info .config "package.json has no 'main' entry point"
    return none
  | some (.str main) =>
    if Text.isBlankText main then .settle strict .badMain none
    else .ok (some (Path.normalize (Path.join root main)))
  | some _ => .settle strict .badMain none

/-- The options of the compiler in its configuration. -/
def compilerOptions (compiler : Json.Fields) (strict : Bool) : Outcome Failure Json.Fields :=
  match compiler.get? "compilerOptions" with
  | none => .ok []
  | some (.obj options) => .ok options
  | some _ => .settle strict .badOptions []

/-- What a look at a package root found. -/
structure Summary where
  root : String
  strict : Bool
  required : List String
  missing : List String

/-- The files that a package root has to hold. -/
def requiredFiles : List String :=
  ["package.json", "tsconfig.json"]

/-- Looks whether a package root holds the required files. -/
def validate (d : Disk) (root : String) (required : List String) (strict : Bool) :
    Outcome Failure Summary :=
  let missing := required.filter fun name => !d.isFile (Path.join root name)
  let summary : Summary := ⟨root, strict, required, missing⟩
  if missing.isEmpty then .ok summary else .settle strict (.missingFiles root missing) summary

end Config

end ApiOutline
