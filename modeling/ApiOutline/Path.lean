import ApiOutline.Text.Basic

/-!
# Lexical paths

Paths are texts whose segments are divided by slashes. Everything here looks at the text alone:
no file has to exist, and `..` takes back the segment before it. A path that begins with exactly
two slashes keeps them; any other number of leading slashes counts as one.
-/

namespace ApiOutline

namespace Path

/-- The segments of a path, with the empty ones that leading, doubled and trailing slashes
make. -/
def segments (p : String) : List String :=
  Text.splitOn '/' p

/-- Whether a path begins at the root. -/
def isAbsolute (p : String) : Bool :=
  Text.startsWith p "/"

/-- The slashes at the beginning that count. -/
def rootOf (p : String) : String :=
  match p.toList with
  | '/' :: '/' :: '/' :: _ => "/"
  | '/' :: '/' :: _ => "//"
  | '/' :: _ => "/"
  | _ => ""

/-- `p` seen from the directory `dir`. An absolute `p` stays what it is. -/
def join (dir p : String) : String :=
  if isAbsolute p then p
  else if dir = "" || Text.endsWith dir "/" then dir ++ p
  else dir ++ "/" ++ p

/-- Adds one segment to a stack of segments, innermost first. A step up takes the innermost one
away; at the root it does nothing, and where there is nothing to take away it stays. -/
def climb (rooted : Bool) (stack : List String) (segment : String) : List String :=
  if segment = "" || segment = "." then stack
  else if segment = ".." then
    match stack with
    | [] => if rooted then [] else [".."]
    | top :: rest => if top = ".." then ".." :: stack else rest
  else segment :: stack

/-- The segments that remain once the steps up are taken. -/
def collapse (rooted : Bool) (parts : List String) : List String :=
  (parts.foldl (climb rooted) []).reverse

/-- The shortest spelling of a path: without empty segments, without `.`, and with `..` only at
the beginning of a relative path. -/
def normalize (p : String) : String :=
  let root := rootOf p
  let text := root ++ "/".intercalate (collapse (root ≠ "") (segments p))
  if text = "" then "." else text

/-- The normalized path seen from the directory `cwd`. -/
def absolute (cwd p : String) : String :=
  normalize (join cwd p)

/-- What stands before the last slash. Slashes before that one go too, unless nothing else is
left. -/
def dirname (p : String) : String :=
  match Text.cutLast '/' p.toList with
  | none => ""
  | some (head, _) =>
    if head.all (· == '/') then String.ofList (head ++ ['/'])
    else String.ofList (Text.dropRight (· == '/') head)

/-- What stands after the last slash. -/
def basename (p : String) : String :=
  match Text.cutLast '/' p.toList with
  | none => p
  | some (_, tail) => String.ofList tail

/-- Cuts a path before the last point of its last segment. A point counts only when some other
character comes before it in the segment. -/
def splitExtension (p : String) : String × String :=
  let name := (basename p).toList
  match Text.cutLast '.' name with
  | some (stem, ext) =>
    if stem.all (· == '.') then (p, "")
    else (String.ofList (p.toList.take (p.length - ext.length - 1)), String.ofList ('.' :: ext))
  | none => (p, "")

/-- The extension of a path with its point, empty when there is none. -/
def extension (p : String) : String :=
  (splitExtension p).2

/-- The longest list that both lists begin with. -/
def commonStart : List String → List String → List String
  | a :: as, b :: bs => if a = b then a :: commonStart as bs else []
  | _, _ => []

/-- Why a relation between paths cannot be given. -/
inductive Fault where
  | noPath
  deriving DecidableEq

/-- The wording of a fault. -/
def Fault.message : Fault → String
  | .noPath => "no path specified"

/-- The segments of a path that name something. -/
def names (p : String) : List String :=
  (segments p).filter (· ≠ "")

/-- The way from the segments `start` to the segments `goal`: up to where they part, then
down. -/
def wayBetween (start goal : List String) : List String :=
  let shared := (commonStart start goal).length
  List.replicate (start.length - shared) ".." ++ goal.drop shared

/-- `p` as seen from `start`, both seen from `cwd`. -/
def relative (cwd p start : String) : Except Fault String :=
  if p = "" then .error .noPath
  else
    match wayBetween (names (absolute cwd start)) (names (absolute cwd p)) with
    | [] => .ok "."
    | way => .ok ("/".intercalate way)

/-- The deepest directory above all the given absolute paths. -/
def common (paths : List String) : String :=
  let parts := paths.map fun p => (names p).filter (· ≠ ".")
  match parts with
  | [] => "/"
  | first :: rest => "/" ++ "/".intercalate (rest.foldl commonStart first)

/-- The spelling of a path without empty segments and without `.`; `..` stays. -/
def tidy (p : String) : String :=
  let text := rootOf p ++ "/".intercalate ((names p).filter (· ≠ "."))
  if text = "" then "." else text

/-- The last point of the last named segment and what follows it, when both sides of the point
hold a character. -/
def suffix (p : String) : String :=
  match ((names p).filter (· ≠ ".")).getLast? with
  | none => ""
  | some name =>
    match Text.cutLast '.' name.toList with
    | some (stem, ext) =>
      if stem.isEmpty || ext.isEmpty then "" else String.ofList ('.' :: ext)
    | none => ""

end Path

end ApiOutline
