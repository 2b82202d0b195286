import ApiOutline.Proofs.Disk.Walks
import ApiOutline.Proofs.Path.Names

/-!
# The names on a disk

On a disk every entry of a folder goes by a name: neither empty nor `.` nor `..`, and without a
slash in it. The type of disks does not say so, and `Disk.WellNamed` does. Wherever a path leads,
through links or up again, what stands there is part of the disk and so has names below it
(`wellNamed_of_find`).
-/

namespace ApiOutline

namespace Item

mutual

/-- Whether all entries below an item go by names. -/
def wellNamed : Item → Bool
  | .folder entries => wellNamedIn entries
  | .file _ => true
  | .link _ => true

/-- Whether all entries among and below the given ones go by names. -/
def wellNamedIn : List (String × Item) → Bool
  | [] => true
  | (name, item) :: rest => decide (Path.IsName name) && item.wellNamed && wellNamedIn rest

end

theorem wellNamedIn_cons_iff {name : String} {item : Item} {rest : List (String × Item)} :
    wellNamedIn ((name, item) :: rest) = true ↔
      Path.IsName name ∧ item.wellNamed = true ∧ wellNamedIn rest = true := by
  rw [wellNamedIn, Bool.and_eq_true, Bool.and_eq_true, decide_eq_true_eq, and_assoc]

theorem wellNamedIn_iff {entries : List (String × Item)} : wellNamedIn entries = true ↔
    ∀ entry ∈ entries, Path.IsName entry.1 ∧ entry.2.wellNamed = true := by
  induction entries with
  | nil => simp [wellNamedIn]
  | cons entry rest ih =>
    rw [wellNamedIn_cons_iff, ih, List.forall_mem_cons, and_assoc]

end Item

namespace Disk

open Item (wellNamedIn wellNamedIn_iff)

/-- All entries of a disk go by names. -/
def WellNamed (d : Disk) : Prop :=
  wellNamedIn d.entries = true

instance (d : Disk) : Decidable d.WellNamed :=
  inferInstanceAs (Decidable (wellNamedIn d.entries = true))

/-! ### Places -/

/-- All entries below a place and in the folders above it go by names. -/
structure Place.WellNamed (here : Place) : Prop where
  item : here.item.wellNamed = true
  above : ∀ step ∈ here.above, wellNamedIn step.2 = true

theorem Place.WellNamed.up {here : Place} (h : here.WellNamed) : here.up.WellNamed := by
  rw [Place.up]
  split
  · exact h
  · next name entries above habove =>
    have habove' := habove ▸ h.above
    exact ⟨habove' _ List.mem_cons_self,
      fun step hstep => habove' step (List.mem_cons_of_mem _ hstep)⟩

private theorem wellNamed_root {d : Disk} (h : d.WellNamed) : d.root.WellNamed :=
  ⟨h, fun _ hstep => absurd hstep List.not_mem_nil⟩

/-- The place of an entry has names, if the folder has. -/
theorem Place.WellNamed.enter {here : Place} (h : here.WellNamed)
    {entries : List (String × Item)} (hentries : here.item = .folder entries)
    {segment name : String} {item : Item} (hlookup : entries.lookup name = some item) :
    Place.WellNamed ⟨item, (segment, entries) :: here.above⟩ := by
  have hin : wellNamedIn entries = true := by
    have hitem := h.item
    rwa [hentries, Item.wellNamed] at hitem
  refine ⟨?_, fun step hstep => ?_⟩
  · exact (wellNamedIn_iff.mp hin _ (Item.mem_of_lookup hlookup)).2
  · rcases List.mem_cons.mp hstep with rfl | hstep
    · exact hin
    · exact h.above step hstep

/-! ### Walking -/

/-- Each step of a walk keeps to names. -/
theorem Place.WellNamed.kept (purpose : Purpose) : Place.Kept purpose Place.WellNamed where
  up := Place.WellNamed.up
  enter h hentries hlookup _ := h.enter hentries hlookup

/-- **What stands at a path** has names below it. -/
theorem wellNamed_of_find {d : Disk} (hd : d.WellNamed) {p : String} {item : Item}
    (h : d.find p = .ok item) : item.wellNamed = true := by
  rw [find, locate] at h
  split at h
  · next place hlocate =>
    obtain rfl := Except.ok.inj h
    split at hlocate
    · cases hlocate
    · have hroot := wellNamed_root hd
      have hplace := holds_of_travel (Place.WellNamed.kept .look) hroot hroot hlocate
      exact hplace.item
  · cases h
  · cases h

theorem wellNamedIn_of_find {d : Disk} (hd : d.WellNamed) {p : String}
    {entries : List (String × Item)} (h : d.find p = .ok (.folder entries)) :
    wellNamedIn entries = true := by
  have hitem := wellNamed_of_find hd h
  rwa [Item.wellNamed] at hitem

theorem wellNamedIn_of_scan {d : Disk} (hd : d.WellNamed) {p : String}
    {entries : List (String × Item)} (h : d.scan p = .ok entries) :
    wellNamedIn entries = true := by
  rw [scan] at h
  split at h
  · next found hfind =>
    exact Except.ok.inj h ▸ wellNamedIn_of_find hd hfind
  · obtain rfl := Except.ok.inj h
    rfl
  · split at h
    · cases h
    · obtain rfl := Except.ok.inj h
      rfl

end Disk

end ApiOutline
