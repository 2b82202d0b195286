import ApiOutline.Disk.Basic

/-!
# Changes to a disk

Files, folders and links are made and removed. Making one needs its folder. Making a folder with
all above it stops at the first path that something else occupies, and keeps the folders that were
made on the way there; where too many are missing none is made.
-/

namespace ApiOutline

/-- Puts `new` at the end of the way `names` below `here`, making the folders on the way. -/
def Item.putAt (new : Item) : List String → Item → Item
  | [], _ => new
  | name :: rest, here =>
    let entries := match here with
      | .folder entries => entries
      | _ => []
    let below := Item.putAt new rest ((entries.lookup name).getD (.folder []))
    if (entries.lookup name).isSome then
      .folder (entries.map fun entry => if entry.1 == name then (name, below) else entry)
    else .folder (entries ++ [(name, below)])

/-- Takes away what stands at the end of the way `names` below `here`. -/
def Item.removeAt : List String → Item → Item
  | [name], .folder entries => .folder (entries.filter fun entry => entry.1 != name)
  | name :: rest, .folder entries =>
    .folder (entries.map fun (n, item) =>
      if n == name then (n, Item.removeAt rest item) else (n, item))
  | _, here => here

namespace Disk

/-- The disk whose root folder is the given item. -/
def withRoot (d : Disk) : Item → Disk
  | .folder entries => { d with entries }
  | _ => d

/-- The disk with `new` at the end of the way `segments`, which goes through no link. -/
def put (d : Disk) (segments : List String) (new : Item) : Disk :=
  d.withRoot (Item.putAt new (segments.map canonical) (.folder d.entries))

/-- Makes an entry where there is none. -/
def make (d : Disk) (p : String) (new : Item) : Except Fault Disk :=
  match d.locate .entry p with
  | .ok (.gap folder segment) => .ok (d.put (folder.way ++ [segment]) new)
  | .ok (.there _) => .error ⟨.exists, p⟩
  | .error cause => .error ⟨cause, p⟩

/-- Makes one folder. -/
def makeFolder (d : Disk) (p : String) : Except Fault Disk :=
  d.make p (.folder [])

/-- Makes a link to the path `target`, which has to be one that can be looked up. Both paths are
spelled, the target first, before either is looked at. -/
def makeLink (d : Disk) (p target : String) : Except Fault Disk :=
  let misspelt := (refusal? p).any Cause.isMisspelt
  match (refusal? target).filter fun cause => cause.isMisspelt || !misspelt with
  | some cause => .error ⟨cause, target⟩
  | none => d.make p (.link target)

/-- Removes the file or the link at `p`. -/
def remove (d : Disk) (p : String) : Except Fault Disk :=
  match d.locate .entry p with
  | .error cause => .error ⟨cause, p⟩
  | .ok (.gap _ _) => .error ⟨.notFound, p⟩
  | .ok (.there place) =>
    if place.item.isFolder then .error ⟨.isFolder, p⟩
    else if Text.endsWith p "/" then .error ⟨.notFolder, p⟩
    else .ok (d.withRoot (Item.removeAt (place.way.map canonical) (.folder d.entries)))

/-- Writes a file at `p`, over the one that is there; a link is followed to where it leads. -/
def write (d : Disk) (p : String) (file : File) : Except Fault Disk :=
  match d.locate .write p with
  | .error cause => .error ⟨cause, p⟩
  | .ok (.gap folder segment) => .ok (d.put (folder.way ++ [segment]) (.file file))
  | .ok (.there place) =>
    if place.item.isFolder then .error ⟨.isFolder, p⟩ else .ok (d.put place.way (.file file))

/-- What several changes in a row left of a disk, and what went wrong, if anything did. -/
structure Attempt where
  disk : Disk
  fault : Option Fault := none

/-- Makes one more change unless something went wrong. -/
def Attempt.andThen (a : Attempt) (change : Disk → Except Fault Disk) : Attempt :=
  if a.fault.isSome then a
  else
    match change a.disk with
    | .ok disk => { disk }
    | .error fault => { a with fault }

/-- The disk, unless something went wrong. -/
def Attempt.result (a : Attempt) : Except Fault Disk :=
  match a.fault with
  | none => .ok a.disk
  | some fault => .error fault

/-- Makes the folder `p` unless it is there. -/
def ensureFolder (d : Disk) (p : String) : Attempt :=
  match d.makeFolder p with
  | .ok disk => { disk }
  | .error fault => { disk := d, fault := if d.isFolder p then none else some fault }

/-- Cuts a path before its last segment, past slashes at its end. -/
def splitLast (p : String) : String × String :=
  let head := Path.dirname p
  let tail := Path.basename p
  if tail = "" then (Path.dirname head, Path.basename head) else (head, tail)

/-- Makes the folder `p` and those above it unless they are there, at most `count` of them. -/
def makeFoldersWithin : Nat → Disk → String → Attempt
  | 0, d, p => { disk := d, fault := some ⟨.tooDeep, p⟩ }
  | count + 1, d, p =>
    let (head, tail) := splitLast p
    if head = "" || tail = "" || d.holds head then d.ensureFolder p
    else
      let above := makeFoldersWithin count d head
      if above.fault.any fun fault => fault.cause ≠ .exists then above
      else if tail = "." then { disk := above.disk }
      else above.disk.ensureFolder p

/-- Makes the folder `p` and those above it unless they are there. -/
def makeFolders (d : Disk) (p : String) : Attempt :=
  makeFoldersWithin d.limits.newFolders d p

end Disk

end ApiOutline
