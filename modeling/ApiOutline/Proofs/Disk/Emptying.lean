import ApiOutline.Proofs.Disk.Glob

/-!
# Disks with emptied files

What files hold does not count where paths are looked up and files are searched for: on the disk
with all its files emptied every walk leads to the same place, and every pattern finds the same
paths (`glob_emptied`). So two disks that differ in what their files hold only, which become the
same when they are emptied, are the same for a search.
-/

namespace ApiOutline

namespace Item

mutual

/-- An item with all files in it emptied. -/
def emptied : Item → Item
  | .file _ => .file default
  | .folder entries => .folder (emptiedIn entries)
  | .link target => .link target

/-- The entries of a folder with all files below them emptied. -/
def emptiedIn : List (String × Item) → List (String × Item)
  | [] => []
  | (name, item) :: rest => (name, item.emptied) :: emptiedIn rest

end

private theorem lookup_emptiedIn (entries : List (String × Item)) (name : String) :
    (emptiedIn entries).lookup name = (entries.lookup name).map emptied := by
  induction entries with
  | nil => rfl
  | cons entry rest ih =>
    obtain ⟨first, item⟩ := entry
    rw [emptiedIn, List.lookup_cons, List.lookup_cons, ih]
    split <;> rfl

@[simp]
theorem isFile_emptied (item : Item) : item.emptied.isFile = item.isFile := by
  cases item <;> rfl

@[simp]
theorem isFolder_emptied (item : Item) : item.emptied.isFolder = item.isFolder := by
  cases item <;> rfl

end Item

namespace Disk

/-- A disk with all its files emptied. -/
def emptied (d : Disk) : Disk :=
  { d with entries := Item.emptiedIn d.entries }

@[simp]
theorem limits_emptied (d : Disk) : d.emptied.limits = d.limits := rfl

/-! ### Where paths lead -/

/-- A place on the emptied disk. -/
def Place.emptied (here : Place) : Place :=
  ⟨here.item.emptied, here.above.map fun step => (step.1, Item.emptiedIn step.2)⟩

/-- A goal on the emptied disk. -/
def Goal.emptied : Goal → Goal
  | .there place => .there place.emptied
  | .gap folder segment => .gap folder.emptied segment

/-- A stretch on the emptied disk. -/
def Stretch.emptied : Stretch → Stretch
  | .goal g => .goal g.emptied
  | .link folder target rest => .link folder.emptied target rest

private theorem Place.up_emptied (here : Place) : here.emptied.up = here.up.emptied := by
  obtain ⟨item, above⟩ := here
  cases above <;> rfl

private theorem walk_emptied (purpose : Purpose) (here : Place) (segments : List String) :
    walk purpose here.emptied segments = (walk purpose here segments).map Stretch.emptied := by
  induction segments generalizing here with
  | nil => rfl
  | cons segment rest ih =>
    obtain ⟨item, above⟩ := here
    cases item with
    | file _ => rfl
    | link _ => rfl
    | folder entries =>
      rw [walk, walk, Place.emptied, Item.emptied]
      dsimp only
      rw [Item.lookup_emptiedIn]
      by_cases hhere : (segment = "" || segment = ".") = true
      · rw [if_pos hhere, if_pos hhere]
        exact ih ⟨.folder entries, above⟩
      rw [if_neg hhere, if_neg hhere]
      by_cases hup : segment = ".."
      · rw [if_pos hup, if_pos hup, ← ih, ← Place.up_emptied]
        rfl
      rw [if_neg hup, if_neg hup]
      -- the segment leads to an entry of the folder, or to none
      cases entries.lookup (canonical segment) with
      | none =>
        dsimp only [Option.map_none]
        split_ifs <;> rfl
      | some item =>
        dsimp only [Option.map_some]
        cases item with
        | file contents =>
          dsimp only [Item.emptied]
          split_ifs
          · rfl
          · rfl
          · exact ih ⟨.file contents, (segment, entries) :: above⟩
        | folder inner =>
          dsimp only [Item.emptied]
          split_ifs
          · rfl
          · rfl
          · exact ih ⟨.folder inner, (segment, entries) :: above⟩
        | link target =>
          dsimp only [Item.emptied]
          split_ifs <;> rfl

private theorem travel_emptied (d : Disk) (purpose : Purpose) (links : Nat) (here : Place)
    (segments : List String) : d.emptied.travel purpose links here.emptied segments =
      (d.travel purpose links here segments).map Goal.emptied := by
  induction links generalizing here segments with
  | zero =>
    rw [travel, travel, walk_emptied]
    cases walk purpose here segments with
    | error cause => rfl
    | ok stretch => cases stretch <;> rfl
  | succ links ih =>
    rw [travel, travel, walk_emptied]
    cases walk purpose here segments with
    | error cause => rfl
    | ok stretch =>
      cases stretch with
      | goal g => rfl
      | link folder target rest =>
        -- a link goes on from the root or from the folder that it stands in
        refine Eq.trans ?_ (ih _ _)
        dsimp only [Except.map, Stretch.emptied]
        split_ifs <;> rfl

/-- **What stands at a path** stands there on the emptied disk as well. -/
theorem find_emptied (d : Disk) (p : String) :
    d.emptied.find p = (d.find p).map Item.emptied := by
  have hlocate : d.emptied.locate .look p = (d.locate .look p).map Goal.emptied := by
    rw [locate, locate]
    split
    · rfl
    · exact d.travel_emptied .look maxLinks d.root (d.wayOf .look p)
  rw [find, find, hlocate]
  cases d.locate .look p with
  | error cause => rfl
  | ok goal => cases goal <;> rfl

@[simp]
theorem isFile_emptied (d : Disk) (p : String) : d.emptied.isFile p = d.isFile p := by
  rw [isFile, isFile, find_emptied]
  cases d.find p with
  | error cause => rfl
  | ok item => exact item.isFile_emptied

@[simp]
theorem isFolder_emptied (d : Disk) (p : String) : d.emptied.isFolder p = d.isFolder p := by
  rw [isFolder, isFolder, find_emptied]
  cases d.find p with
  | error cause => rfl
  | ok item => exact item.isFolder_emptied

private theorem probe_emptied (d : Disk) (p : String) :
    d.emptied.probe p = (d.probe p).map (Option.map Item.emptied) := by
  rw [probe, probe, find_emptied]
  cases d.find p with
  | ok item => rfl
  | error cause => cases cause <;> rfl

private theorem entriesAt_emptied (d : Disk) (p : String) :
    d.emptied.entriesAt p = (d.entriesAt p).map Item.emptiedIn := by
  rw [entriesAt, entriesAt, find_emptied]
  cases d.find p with
  | ok item => cases item <;> rfl
  | error cause => cases cause <;> rfl

/-! ### What patterns find -/

private theorem any_emptied (found : Option Item) :
    (found.map Item.emptied).any Item.isFile = found.any Item.isFile ∧
      (found.map Item.emptied).any Item.isFolder = found.any Item.isFolder := by
  cases found <;> simp

private theorem entryIsFolder_emptied (d : Disk) (p name : String) (item : Item) :
    d.emptied.entryIsFolder p name item.emptied = d.entryIsFolder p name item := by
  cases item with
  | file _ => rfl
  | folder _ => rfl
  | link target =>
    rw [Item.emptied, entryIsFolder, entryIsFolder, probe_emptied]
    cases d.probe (Path.join p name) with
    | error f => rfl
    | ok found => exact congrArg Except.ok (any_emptied found).2

-- the induction is over the tree of items, as the definitions are

mutual

private theorem foldersAt_emptied (d : Disk) (cause : Cause) : ∀ (item : Item) (room : Nat)
    (p name : String),
    foldersAt d.emptied cause room p name item.emptied = foldersAt d cause room p name item
  | .file _, _, _, _ => rfl
  | .link target, _, p, name => by
    have hfolder := entryIsFolder_emptied d p name (.link target)
    rw [Item.emptied] at hfolder ⊢
    rw [foldersAt_link, foldersAt_link, hfolder]
  | .folder _, 0, _, _ => rfl
  | .folder entries, room + 1, p, name => by
    rw [Item.emptied, foldersAt_folder, foldersAt_folder, foldersAmong_emptied d cause entries]

private theorem foldersAmong_emptied (d : Disk) (cause : Cause) : ∀ (entries : List (String × Item))
    (room : Nat) (p : String), foldersAmong d.emptied cause room p (Item.emptiedIn entries) =
      foldersAmong d cause room p entries
  | [], _, _ => rfl
  | (name, item) :: rest, room, p => by
    rw [Item.emptiedIn, foldersAmong_cons, foldersAmong_cons, foldersAt_emptied d cause item,
      foldersAmong_emptied d cause rest]

end

private theorem foldersFrom_emptied (d : Disk) (cause : Cause) (p : String) :
    d.emptied.foldersFrom cause p = d.foldersFrom cause p := by
  rw [foldersFrom, foldersFrom, entriesAt_emptied]
  cases d.entriesAt p with
  | error f => rfl
  | ok entries => exact congrArg _ (foldersAmong_emptied d cause entries d.limits.search p)

private theorem accepted_emptied (d : Disk) (tokens : List Wildcard.Token) (foldersOnly : Bool)
    (p : String) : d.emptied.accepted tokens foldersOnly p = d.accepted tokens foldersOnly p := by
  rw [accepted, accepted, entriesAt_emptied]
  cases d.entriesAt p with
  | error f => rfl
  | ok entries =>
    dsimp only [Except.map]
    induction entries with
    | nil => rw [Item.emptiedIn, List.flatMap_nil, List.flatMap_nil]
    | cons entry rest ih =>
      obtain ⟨name, item⟩ := entry
      rw [Item.emptiedIn, List.flatMap_cons, List.flatMap_cons, ih, acceptedEntry, acceptedEntry,
        entryIsFolder_emptied]

private theorem select_emptied (d : Disk) (foldersOnly : Bool) (selectors : List Pattern.Selector) :
    d.emptied.select foldersOnly selectors = d.select foldersOnly selectors := by
  induction selectors with
  | nil =>
    funext p
    rw [select_nil, select_nil]
  | cons selector rest ih =>
    funext p
    cases selector with
    | exact name =>
      rw [select_exact, select_exact, probe_emptied, ih]
      cases d.probe (child p name) with
      | error f => rfl
      | ok found =>
        cases found with
        | none => rfl
        | some item =>
          dsimp only [Except.map, Option.map_some]
          rw [Item.isFolder_emptied]
    | wild tokens => rw [select_wild, select_wild, accepted_emptied, ih]
    | deep => rw [select_deep, select_deep, foldersFrom_emptied, ih]

private theorem filesAmong_emptied (d : Disk) (finds : List Find) :
    d.emptied.filesAmong finds = d.filesAmong finds := by
  induction finds with
  | nil => rfl
  | cons find rest ih =>
    cases find with
    | fault f => rfl
    | path p =>
      rw [filesAmong_path, filesAmong_path, ih, probe_emptied]
      cases d.probe p with
      | error f => rfl
      | ok found =>
        dsimp only [Except.map, Bind.bind, Except.bind]
        rw [(any_emptied found).1]

/-- **What a pattern finds** is found on the emptied disk as well. -/
theorem glob_emptied (d : Disk) (root : String) (pattern : Pattern) :
    d.emptied.glob root pattern = d.glob root pattern := by
  rw [glob, glob, probe_emptied]
  cases d.probe (Path.tidy root) with
  | error f => dsimp only [Except.map, Bind.bind, Except.bind]
  | ok found =>
    dsimp only [Except.map, Bind.bind, Except.bind]
    cases found with
    | none => dsimp only [Option.map_none]
    | some item =>
      cases item with
      | folder entries =>
        dsimp only [Option.map_some, Item.emptied]
        rw [select_emptied, filesAmong_emptied]
      | file _ => dsimp only [Option.map_some, Item.emptied]
      | link _ => dsimp only [Option.map_some, Item.emptied]

end Disk

end ApiOutline
