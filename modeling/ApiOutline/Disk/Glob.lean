import ApiOutline.Disk.Basic
import ApiOutline.Wildcard

/-!
# Selecting files by pattern

A pattern is a relative path whose segments may be wildcards. A wildcard segment matches the names
in a folder, and the segment `**` matches the folder at hand and all folders below it, of which
none is reached through a link. Other segments are taken as they are, so `..` stays in the paths
found. Segments before the last have to be folders, and in the end only files are kept.

A selection comes upon one path after the other and fails at the first one whose name is too long
to be looked up, be it one that was found or a link on the way to where folders are looked for. It
fails as well where `**` comes to a folder that lies too deep.
-/

namespace ApiOutline

/-- Why a pattern is refused. -/
inductive Pattern.Fault where
  | empty
  | absolute
  | partialDeep
  | noSegment
  | onlySlash
  | tooManySegments
  deriving DecidableEq

/-- The wording of a refusal. -/
def Pattern.Fault.message : Pattern.Fault → String
  | .empty => "Unacceptable pattern: ''"
  | .absolute => "Non-relative patterns are unsupported"
  | .partialDeep => "Invalid pattern: '**' can only be an entire path component"
  | .noSegment => "tuple index out of range"
  | .onlySlash => "'_TerminatingSelector' object has no attribute 'select_from'"
  | .tooManySegments => "maximum recursion depth exceeded"

/-- One segment of a pattern. -/
inductive Pattern.Selector where
  /-- The folder at hand and all below it. -/
  | deep
  | wild (tokens : List Wildcard.Token)
  | exact (name : String)

/-- The segments of a pattern, and whether it ends with a slash and so asks for folders. -/
structure Pattern where
  selectors : List Pattern.Selector
  foldersOnly : Bool

namespace Pattern

/-- The selector of a segment. -/
def Selector.ofSegment (segment : String) : Except Fault Selector :=
  if segment = "**" then .ok .deep
  else if Text.contains segment "**" then .error .partialDeep
  else if Wildcard.hasMark segment then .ok (.wild (Wildcard.tokens segment))
  else .ok (.exact segment)

/-- The selectors of the segments of a pattern, at most `limit`, which are read from the first one
on. -/
def selectorsOf (limit : Nat) (segments : List String) : Except Fault (List Selector) := do
  let selectors ← (segments.take limit).mapM Selector.ofSegment
  if limit < segments.length then throw .tooManySegments
  return selectors

/-- The pattern that a text writes; it may have at most `limit` segments. -/
def read (limit : Nat) (text : String) : Except Fault Pattern :=
  if text = "" then .error .empty
  else if Path.isAbsolute text then .error .absolute
  else
    let segments := (Path.names text).filter (· ≠ ".")
    let foldersOnly := Text.endsWith text "/"
    if segments.isEmpty then .error (if foldersOnly then .onlySlash else .noSegment)
    else (selectorsOf limit segments).map fun selectors => ⟨selectors, foldersOnly⟩

end Pattern

namespace Disk

/-- The tidy path of an entry in the folder at the tidy path `p`. -/
def child (p name : String) : String :=
  Path.tidy (Path.join p name)

/-- What a selection comes upon: a path, or a fault at which it ends. -/
inductive Find where
  | path (p : String)
  | fault (f : Fault)
  deriving DecidableEq

/-- Goes on from a path that was found. -/
def Find.andThen (next : String → List Find) : Find → List Find
  | .path p => next p
  | .fault f => [.fault f]

/-- The entries of the folder at a path that a selection came to. -/
def entriesAt (d : Disk) (p : String) : Except Fault (List (String × Item)) :=
  match d.find p with
  | .ok (.folder entries) => .ok entries
  | .error .nameTooLong => .error ⟨.nameTooLong, p⟩
  | _ => .ok []

/-- Whether the entry `item` called `name` in the folder `p` is a folder; a link is followed, from
the path of the folder as it is given. -/
def entryIsFolder (d : Disk) (p name : String) : Item → Except Fault Bool
  | .file _ => .ok false
  | .folder _ => .ok true
  | .link _ => (d.probe (Path.join p name)).map fun found => found.any Item.isFolder

/-- Why `**` fails in a folder that lies too deep, by what is selected next. -/
def causeTooDeep : List Pattern.Selector → Cause
  | .exact _ :: _ => .tooDeepForName
  | _ => .tooDeep

mutual

/-- The path of the entry `item` called `name` in the folder `p` and the paths of all folders below
it, if it is a folder; they may lie `room` deep, and one that lies deeper is a fault of the given
cause. A link is looked at and never entered. -/
def foldersAt (d : Disk) (cause : Cause) (room : Nat) (p name : String) : Item → List Find
  | .file _ => []
  | .link target =>
    match d.entryIsFolder p name (.link target) with
    | .ok _ => []
    | .error f => [.fault f]
  | .folder entries =>
    match room with
    | 0 => [.fault ⟨cause, child p name⟩]
    | room + 1 =>
      .path (child p name) ::
        (if maxPath < byteSize (child p name) then [.fault ⟨.nameTooLong, child p name⟩]
          else foldersAmong d cause room (child p name) entries)

/-- The paths of the folders among and below the entries of `p`. -/
def foldersAmong (d : Disk) (cause : Cause) (room : Nat) (p : String) :
    List (String × Item) → List Find
  | [] => []
  | (name, item) :: rest => foldersAt d cause room p name item ++ foldersAmong d cause room p rest

end

/-- The path `p` of a folder and the paths of all folders below it. -/
def foldersFrom (d : Disk) (cause : Cause) (p : String) : List Find :=
  .path p ::
    match d.entriesAt p with
    | .ok entries => foldersAmong d cause d.limits.search p entries
    | .error f => [.fault f]

/-- The path of an entry of the folder `p`, if a wildcard accepts its name. -/
def acceptedEntry (d : Disk) (tokens : List Wildcard.Token) (foldersOnly : Bool) (p : String)
    (entry : String × Item) : List Find :=
  let (name, item) := entry
  match if foldersOnly then d.entryIsFolder p name item else .ok true with
  | .error f => [.fault f]
  | .ok fits =>
    if fits && Wildcard.accepts tokens (Text.symbols name) then [.path (child p name)] else []

/-- The paths of the entries of the folder `p` that a wildcard accepts. -/
def accepted (d : Disk) (tokens : List Wildcard.Token) (foldersOnly : Bool) (p : String) :
    List Find :=
  match d.entriesAt p with
  | .ok entries => entries.flatMap (d.acceptedEntry tokens foldersOnly p)
  | .error f => [.fault f]

/-- What the selectors find from the folder at `p` on. -/
def select (d : Disk) (foldersOnly : Bool) : List Pattern.Selector → String → List Find
  | [], p => [.path p]
  | .exact name :: rest, p =>
    match d.probe (child p name) with
    | .error f => [.fault f]
    | .ok none => []
    | .ok (some item) =>
      if (foldersOnly || !rest.isEmpty) && !item.isFolder then []
      else select d foldersOnly rest (child p name)
  | .wild tokens :: rest, p =>
    (d.accepted tokens (foldersOnly || !rest.isEmpty) p).flatMap
      (Find.andThen (select d foldersOnly rest))
  | .deep :: rest, p =>
    ((d.foldersFrom (causeTooDeep rest) p).flatMap
      (Find.andThen (select d foldersOnly rest))).eraseDups

/-- The paths that were found and at which files stand, up to the first fault. -/
def filesAmong (d : Disk) : List Find → Except Fault (List String)
  | [] => .ok []
  | .fault f :: _ => .error f
  | .path p :: rest => do
    let found ← d.probe p
    let others ← filesAmong d rest
    return if found.any Item.isFile then p :: others else others

/-- The tidy paths of the files that a pattern finds from the folder `root` on. -/
def glob (d : Disk) (root : String) (pattern : Pattern) : Except Fault (List String) := do
  let start := Path.tidy root
  match ← d.probe start with
  | some (.folder _) => d.filesAmong (d.select pattern.foldersOnly pattern.selectors start)
  | _ => return []

end Disk

end ApiOutline
