import ApiOutline.Disk.Spelling
import ApiOutline.Document
import ApiOutline.Limits
import ApiOutline.Path
import ApiOutline.Text.Utf8
import ApiOutline.Tree

/-!
# Disks

A disk is a tree of folders, files and links, seen from a working directory. Looking a path up
walks its segments from the root or from the working directory; `..` goes back to the folder the
walk came from, and a link goes on with the path it holds, seen from the folder it stands in. The
entries of a folder have their names in canonical spelling, and a segment leads to the entry of the
name that it spells. A file holds bytes, and may come with what its text was parsed into: a syntax
tree for a source file, a document for a manifest that is not JSON.
-/

namespace ApiOutline

/-- Why a file in another notation than JSON gave no document: its notation is unclear, or it
writes a senseless value. The complaint goes by a name. -/
inductive Complaint where
  | unclear (name : String)
  | senseless (name : String)
  deriving DecidableEq

/-- The name of a complaint. -/
def Complaint.name : Complaint → String
  | .unclear name | .senseless name => name

/-- What reading a file in another notation than JSON gave. -/
abbrev Parsed := Except Complaint Document

/-- The contents of a file. -/
structure File where
  bytes : List UInt8
  tree : Option Tree := none
  document : Option Parsed := none
  deriving Inhabited

/-- What can stand in a folder. -/
inductive Item where
  | file (contents : File)
  | folder (entries : List (String × Item))
  /-- A link to a path, which may lead nowhere. -/
  | link (target : String)
  deriving Inhabited

/-- Whether an item is a file. -/
def Item.isFile : Item → Bool
  | .file _ => true
  | _ => false

/-- Whether an item is a folder. -/
def Item.isFolder : Item → Bool
  | .folder _ => true
  | _ => false

/-- The entries of the root folder, the working directory, an absolute path, and the limits for
work on the disk. -/
structure Disk where
  entries : List (String × Item)
  cwd : String
  limits : Limits

namespace Disk

/-! ### Faults -/

/-- Why an operation on a path fails. -/
inductive Cause where
  | notFound
  | exists
  | notFolder
  | isFolder
  | nameTooLong
  | tooManyLinks
  /-- Too many folders, one inside the other, are to be made or gone through. -/
  | tooDeep
  /-- A name is looked for in too many folders, one inside the other. -/
  | tooDeepForName
  /-- The path holds the character that ends a name. -/
  | endedName
  /-- The path holds a lone surrogate that cannot be written. -/
  | unwritable
  deriving DecidableEq

/-- A failed operation and the path it was tried on. -/
structure Fault where
  cause : Cause
  path : String
  deriving DecidableEq

/-- Whether a path was not even handed to the disk. -/
def Cause.isMisspelt : Cause → Bool
  | .endedName | .unwritable => true
  | _ => false

/-- The number and the words for a cause. -/
def Cause.text : Cause → String
  | .notFound => "[Errno 2] No such file or directory"
  | .exists => "[Errno 17] File exists"
  | .notFolder => "[Errno 20] Not a directory"
  | .isFolder => "[Errno 21] Is a directory"
  | .nameTooLong => "[Errno 36] File name too long"
  | .tooManyLinks => "[Errno 40] Too many levels of symbolic links"
  | .tooDeep => "maximum recursion depth exceeded"
  | .tooDeepForName => "maximum recursion depth exceeded while calling a Python object"
  | .endedName => "embedded null byte"
  | .unwritable => "surrogates not allowed"

/-- The wording of a fault. -/
def Fault.message (f : Fault) : String :=
  match f.cause, unwritable? f.path with
  | .unwritable, some (position, units) => unwritableText position units
  | .endedName, _ | .tooDeep, _ | .tooDeepForName, _ => f.cause.text
  | cause, _ => cause.text ++ ": " ++ Text.quoted f.path

/-! ### Walking -/

/-- The greatest number of bytes in a path. -/
def maxPath : Nat := 4095

/-- The greatest number of bytes in a segment. -/
def maxName : Nat := 255

/-- The greatest number of links that lead to one place. -/
def maxLinks : Nat := 40

/-- A place on a disk: the item that stands there, and the entries of each folder above it with the
segment that leads on, innermost first. -/
structure Place where
  item : Item
  above : List (String × List (String × Item)) := []

/-- The folder above a place; the root is above itself. -/
def Place.up (here : Place) : Place :=
  match here.above with
  | [] => here
  | (_, entries) :: above => ⟨.folder entries, above⟩

/-- The segments on the way from the root to a place. -/
def Place.way (here : Place) : List String :=
  (here.above.map Prod.fst).reverse

/-- Where a path leads: to a place, or to a folder that has no entry for the last segment. -/
inductive Goal where
  | there (place : Place)
  | gap (folder : Place) (segment : String)

/-- How far segments lead: to their goal, or to a link in a folder, before the segments that are
left. -/
inductive Stretch where
  | goal (g : Goal)
  | link (folder : Place) (target : String) (rest : List String)

/-- What a path is walked for: to look at what it leads to, to handle the entry at its end, which
may be a link, or to write a file, whose name cannot have slashes after it. -/
inductive Purpose where
  | look
  | entry
  | write
  deriving DecidableEq

/-- Walks segments up to the first link on the way. -/
def walk (purpose : Purpose) (here : Place) : List String → Except Cause Stretch
  | [] => .ok (.goal (.there here))
  | segment :: rest =>
    match here.item with
    | .folder entries =>
      if segment = "" || segment = "." then walk purpose here rest
      else if segment = ".." then walk purpose here.up rest
      else if purpose = .write && !rest.isEmpty && rest.all (· = "") then .error .isFolder
      else if maxName < byteSize segment then .error .nameTooLong
      else
        match entries.lookup (canonical segment) with
        | none => if rest.isEmpty then .ok (.goal (.gap here segment)) else .error .notFound
        | some (.link target) =>
          if purpose = .entry && rest.isEmpty then
            .ok (.goal (.there ⟨.link target, (segment, entries) :: here.above⟩))
          else .ok (.link here target rest)
        | some item => walk purpose ⟨item, (segment, entries) :: here.above⟩ rest
    | _ => .error .notFolder

/-- The root of a disk. -/
def root (d : Disk) : Place :=
  ⟨.folder d.entries, []⟩

/-- Walks segments through at most `links` links. -/
def travel (d : Disk) (purpose : Purpose) (links : Nat) (here : Place) (segments : List String) :
    Except Cause Goal :=
  match walk purpose here segments with
  | .error cause => .error cause
  | .ok (.goal g) => .ok g
  | .ok (.link folder target rest) =>
    match links with
    | 0 => .error .tooManyLinks
    | links + 1 =>
      travel d purpose links (if Path.isAbsolute target then d.root else folder)
        (Path.segments (canonical target) ++ rest)

/-- Whether a path takes too many bytes. -/
def isOverlong (p : String) : Bool :=
  decide (maxPath < byteSize p)

/-- Why a path cannot be looked up at all, if so. -/
def refusal? (p : String) : Option Cause :=
  if (unwritable? p).isSome then some .unwritable
  else if p.toList.contains (Char.ofNat 0) then some .endedName
  else if p = "" then some .notFound
  else if maxPath < byteSize p then some .nameTooLong
  else none

/-- The segments of a path that is walked from the root. Slashes after an entry do not count. -/
def wayOf (d : Disk) (purpose : Purpose) (p : String) : List String :=
  let full := Path.join d.cwd p
  Path.segments (if purpose = .entry then Text.trimEnd full '/' else full)

/-- Where a path leads. -/
def locate (d : Disk) (purpose : Purpose) (p : String) : Except Cause Goal :=
  match refusal? p with
  | some cause => .error cause
  | none => d.travel purpose maxLinks d.root (d.wayOf purpose p)

/-! ### Looking things up -/

/-- What stands at a path. -/
def find (d : Disk) (p : String) : Except Cause Item :=
  match d.locate .look p with
  | .ok (.there place) => .ok place.item
  | .ok (.gap _ _) => .error .notFound
  | .error cause => .error cause

/-- Whether a file stands at a path. -/
def isFile (d : Disk) (p : String) : Bool :=
  match d.find p with
  | .ok item => item.isFile
  | .error _ => false

/-- Whether a folder stands at a path. -/
def isFolder (d : Disk) (p : String) : Bool :=
  match d.find p with
  | .ok item => item.isFolder
  | .error _ => false

/-- Whether anything stands at a path. -/
def holds (d : Disk) (p : String) : Bool :=
  (d.find p).toBool

/-- What stands at a path, if anything does. Only a name that is too long is a fault. -/
def probe (d : Disk) (p : String) : Except Fault (Option Item) :=
  match d.find p with
  | .ok item => .ok (some item)
  | .error .nameTooLong => .error ⟨.nameTooLong, p⟩
  | .error _ => .ok none

/-- The entries of the folder at a path, on a walk: there are none when it is no folder, and only a
path that cannot be handed to the disk is a fault. -/
def scan (d : Disk) (p : String) : Except Fault (List (String × Item)) :=
  match d.find p with
  | .ok (.folder entries) => .ok entries
  | .ok _ => .ok []
  | .error cause => if cause.isMisspelt then .error ⟨cause, p⟩ else .ok []

/-- The file at a path. -/
def read (d : Disk) (p : String) : Except Fault File :=
  match d.find p with
  | .ok (.file contents) => .ok contents
  | .ok _ => .error ⟨.isFolder, p⟩
  | .error cause => .error ⟨cause, p⟩

/-- The normalized path of `p` seen from the working directory. -/
def absolute (d : Disk) (p : String) : String :=
  Path.absolute d.cwd p

/-- The path without links of the place that `p` leads to; the normalized path when it leads
nowhere. -/
def real (d : Disk) (p : String) : String :=
  match d.locate .look p with
  | .ok (.there place) => "/" ++ "/".intercalate place.way
  | _ => "/" ++ "/".intercalate (Path.names (d.absolute p))

/-- The disk as seen from the folder that `p` leads to. -/
def goTo (d : Disk) (p : String) : Disk :=
  { d with cwd := canonical (d.real p) }

/-- `p` as seen from `start`, both seen from the working directory. -/
def relative (d : Disk) (p start : String) : Except Path.Fault String :=
  Path.relative d.cwd p start

end Disk

/-- The text of a file, with every line end as `\n`. -/
def File.text (f : File) : Except Utf8.Fault String :=
  (Utf8.decodeFrom 0 f.bytes).map fun cs => Text.ofChars (Text.unifyLineEnds cs)

end ApiOutline
