import ApiOutline.Proofs.Disk.Names
import ApiOutline.Proofs.Disk.Writing

/-!
# What holds in every folder

What a disk keeps to is often said of the entries of each folder: that no two of them go by one
name, that none is a link. `Item.everyFolder` says so of all folders at and below an item. It holds
further down as well (`everyFolder_of_at?`) and wherever a path leads (`everyFolder_of_find`).

A walk over the entries and a look-up by name agree where each name is that of one entry, which the
type of disks does not say and `Disk.Distinct` does.
-/

namespace ApiOutline

open ApiOutline.Path (IsName)

namespace Item

mutual

/-- A property holds of the entries of each folder at and below an item. -/
def everyFolder (P : List (String × Item) → Bool) : Item → Bool
  | .folder entries => P entries && everyFolderIn P entries
  | .file _ => true
  | .link _ => true

/-- A property holds of the entries of each folder among and below some entries. -/
def everyFolderIn (P : List (String × Item) → Bool) : List (String × Item) → Bool
  | [] => true
  | (_, item) :: rest => item.everyFolder P && everyFolderIn P rest

end

variable {P : List (String × Item) → Bool}

theorem everyFolder_folder_iff {entries : List (String × Item)} :
    (Item.folder entries).everyFolder P = true ↔
      P entries = true ∧ everyFolderIn P entries = true := by
  rw [everyFolder, Bool.and_eq_true]

theorem everyFolderIn_iff {entries : List (String × Item)} : everyFolderIn P entries = true ↔
    ∀ entry ∈ entries, entry.2.everyFolder P = true := by
  induction entries with
  | nil => simp [everyFolderIn]
  | cons entry rest ih =>
    obtain ⟨name, item⟩ := entry
    simp [everyFolderIn, ih]

/-- What every entry of a folder takes over holds of what stands at the end of a way, and what its
name has holds of all names on the way. -/
theorem holds_of_at? (Q : Item → Prop) (R : String → Prop)
    (henter : ∀ {entries : List (String × Item)} {name : String} {item : Item},
      Q (.folder entries) → entries.lookup name = some item → R name ∧ Q item)
    {item below : Item} (h : Q item) {way : List String} (hbelow : item.at? way = some below) :
    (∀ n ∈ way, R n) ∧ Q below := by
  induction way generalizing item with
  | nil => exact ⟨List.forall_mem_nil _, Option.some.inj hbelow ▸ h⟩
  | cons name rest ih =>
    cases item with
    | folder entries =>
      obtain ⟨inner, hlookup, hbelow⟩ := Option.bind_eq_some_iff.mp hbelow
      obtain ⟨hname, hinner⟩ := henter h hlookup
      obtain ⟨hrest, hend⟩ := ih hinner hbelow
      exact ⟨List.forall_mem_cons.mpr ⟨hname, hrest⟩, hend⟩
    | _ => cases hbelow

theorem everyFolder_of_at? {item below : Item} (h : item.everyFolder P = true) {way : List String}
    (hbelow : item.at? way = some below) : below.everyFolder P = true := by
  refine (holds_of_at? (·.everyFolder P = true) (fun _ => True) (fun h hlookup => ?_) h hbelow).2
  have hin := (everyFolder_folder_iff.mp h).2
  exact ⟨trivial, everyFolderIn_iff.mp hin _ (mem_of_lookup hlookup)⟩

/-- What stands at the end of a way goes by a name, as all that stands on it. -/
theorem isName_of_at? {item below : Item} (h : item.wellNamed = true) {way : List String}
    (hbelow : item.at? way = some below) : ∀ n ∈ way, IsName n :=
  (holds_of_at? (·.wellNamed = true) IsName
    (fun h hlookup => wellNamedIn_iff.mp h _ (mem_of_lookup hlookup)) h hbelow).1

end Item

namespace Disk

variable {d : Disk} {P : List (String × Item) → Bool}

/-- All folders at a place and above it have a property. -/
structure Place.EveryFolder (P : List (String × Item) → Bool) (here : Place) : Prop where
  item : here.item.everyFolder P = true
  above : ∀ step ∈ here.above, (Item.folder step.2).everyFolder P = true

theorem Place.EveryFolder.kept (purpose : Purpose) :
    Place.Kept purpose (Place.EveryFolder P) where
  up {here} h := by
    rw [Place.up]
    split
    · exact h
    · next name entries above habove =>
      obtain ⟨htop, hrest⟩ := List.forall_mem_cons.mp (habove ▸ h.above)
      exact ⟨htop, hrest⟩
  enter {here entries segment item} h hentries hlookup _ := by
    have hfolder : (Item.folder entries).everyFolder P = true := hentries ▸ h.item
    refine ⟨?_, List.forall_mem_cons.mpr ⟨hfolder, h.above⟩⟩
    have hin := (Item.everyFolder_folder_iff.mp hfolder).2
    exact Item.everyFolderIn_iff.mp hin _ (Item.mem_of_lookup hlookup)

/-- **Wherever a path leads**, all folders have a property that all folders of the disk have. -/
theorem everyFolder_of_find (h : (Item.folder d.entries).everyFolder P = true) {p : String}
    {item : Item} (hfind : d.find p = .ok item) : item.everyFolder P = true := by
  rw [find, locate] at hfind
  split at hfind
  · next place hlocate =>
    obtain rfl := Except.ok.inj hfind
    split at hlocate
    · cases hlocate
    · have hroot : Place.EveryFolder P d.root := ⟨h, List.forall_mem_nil _⟩
      have hplace := holds_of_travel (Place.EveryFolder.kept .look) hroot hroot hlocate
      exact hplace.item
  · cases hfind
  · cases hfind

theorem everyFolder_of_scan (h : (Item.folder d.entries).everyFolder P = true)
    (hnil : P [] = true) {p : String} {entries : List (String × Item)}
    (hscan : d.scan p = .ok entries) : (Item.folder entries).everyFolder P = true := by
  have hnone : (Item.folder []).everyFolder P = true := Item.everyFolder_folder_iff.mpr ⟨hnil, rfl⟩
  rw [scan] at hscan
  split at hscan
  · next found hfind =>
    obtain rfl := Except.ok.inj hscan
    exact everyFolder_of_find h hfind
  · exact Except.ok.inj hscan ▸ hnone
  · split at hscan
    · cases hscan
    · exact Except.ok.inj hscan ▸ hnone

/-! ### Names of one entry -/

/-- No two entries go by one name. -/
def OneOfEach (entries : List (String × Item)) : Bool :=
  decide (entries.map Prod.fst).Nodup

/-- In each folder of a disk a name is that of one entry. -/
def Distinct (d : Disk) : Prop :=
  (Item.folder d.entries).everyFolder OneOfEach = true

instance (d : Disk) : Decidable d.Distinct :=
  inferInstanceAs (Decidable ((Item.folder d.entries).everyFolder OneOfEach = true))

theorem lookup_of_mem {entries : List (String × Item)} (h : OneOfEach entries = true)
    {name : String} {item : Item} (hmem : (name, item) ∈ entries) :
    entries.lookup name = some item := by
  obtain ⟨front, back, rfl⟩ := List.append_of_mem hmem
  have hnodup := of_decide_eq_true h
  rw [List.map_append, List.map_cons] at hnodup
  refine List.lookup_eq_some_iff.mpr ⟨front, back, rfl, fun entry hentry => ?_⟩
  -- the name of an entry before it would be there twice
  have hne := (List.nodup_append.mp hnodup).2.2 _ (List.mem_map_of_mem hentry) name
    List.mem_cons_self
  simpa using Ne.symm hne

end Disk

end ApiOutline
