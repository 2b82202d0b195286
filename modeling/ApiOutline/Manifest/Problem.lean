/-!
# Problems with a manifest

Everything that can be wrong with the manifest of a workspace once its notation has been read.
-/

namespace ApiOutline

namespace Manifest

/-- What is wrong. -/
inductive Problem where
  | fileNotFound (path : String)
  | notObject
  /-- A value cannot be shown, since an integer in it has too many digits. -/
  | tooManyDigits
  | packageNotObject
  | noWorkspaceName
  | noPackages
  | noPackageName
  | noRoot (package : String)
  | modulesNotList (package : String)
  | emptyModule (package : String)
  | duplicate (package : String)
  deriving DecidableEq

/-- The wording of a problem. -/
def Problem.message : Problem → String
  | .fileNotFound path => "Manifest file not found: " ++ path
  | .notObject => "manifest must be an object"
  | .tooManyDigits => "Exceeds the limit (4300 digits) for integer string conversion; "
      ++ "use sys.set_int_max_str_digits() to increase the limit"
  | .packageNotObject => "package entry must be an object"
  | .noWorkspaceName => "workspace_name is required"
  | .noPackages => "packages must be a non-empty list"
  | .noPackageName => "package.name is required"
  | .noRoot package => "package '" ++ package ++ "': root is required"
  | .modulesNotList package => "package '" ++ package ++ "': modules must be a list"
  | .emptyModule package => "package '" ++ package ++ "': modules contains empty path"
  | .duplicate package => "Duplicate package name in manifest: " ++ package

end Manifest

end ApiOutline
