import ApiOutline.Json.Reader

/-!
# Problems with a configuration

Everything that can be wrong with the configuration of a package. In strict mode a problem stops
the work; otherwise it is logged, together with what is done instead.
-/

namespace ApiOutline

namespace Config

/-- What is wrong. -/
inductive Problem where
  | missingFile (path : String)
  | emptyFile (path : String)
  | malformed (path : String) (fault : Json.Fault)
  | notObject (path kind : String)
  | circular (path : String)
  | badExtends (path : String)
  | baseNotFound (base path : String)
  | badMain
  | badOptions
  | missingFiles (root : String) (names : List String)
  deriving DecidableEq

namespace Problem

/-- The wording of a problem. -/
def message : Problem → String
  | .missingFile path => "Config file not found: " ++ path
  | .emptyFile path => "Config file is empty: " ++ path
  | .malformed path fault => "Failed to parse JSON at " ++ path ++ ": " ++ fault.message
  | .notObject path kind => "Unexpected config payload type in " ++ path ++ ": " ++ kind
  | .circular path => "Circular tsconfig extends: " ++ path
  | .badExtends path => "tsconfig 'extends' must be a string or a list of strings in " ++ path
  | .baseNotFound base path =>
    "tsconfig base '" ++ base ++ "' extended by " ++ path ++ " not found"
  | .badMain => "package.json 'main' must be a non-empty string"
  | .badOptions => "tsconfig 'compilerOptions' must be an object"
  | .missingFiles root names =>
    "Missing required files in " ++ root ++ ": " ++ ", ".intercalate names

/-- What is done about a problem that does not stop the work. -/
def remedy : Problem → String
  | .badExtends _ | .baseNotFound _ _ | .badMain => "ignoring it"
  | .badOptions => "using defaults"
  | .missingFiles _ _ => "defaults may be used"
  | _ => "continuing with defaults"

/-- The warning for a problem that does not stop the work. -/
def warning : Problem → String
  | .missingFiles root names =>
    "Missing files (" ++ ", ".intercalate names ++ ") in " ++ root ++ "; defaults may be used"
  | problem => problem.message ++ "; " ++ problem.remedy

end Problem

end Config

end ApiOutline
