import ApiOutline.Proofs.Disk.Folders
import ApiOutline.Proofs.Relocation.Trees

/-!
# Plain trees

A tree is plain if no link stands in it and its names are spelled as the disk gives them back. What
stands at the end of a way in it is found by the path that goes on by the names of the way, unless
that path is too long (`find_path_of_at?`): none of the names is refused for itself, and a path that
is made up of such names can only be refused for its length.
-/

namespace ApiOutline

open ApiOutline.Path (IsStep IsName Folder)

/-- A disk takes a name, and gives it back as it is spelled. -/
structure Disk.Keeps (name : String) : Prop where
  canonical : Disk.canonical name = name
  refusal? : Disk.refusal? name = none
  short : Disk.byteSize name ≤ Disk.maxName

instance (name : String) : Decidable (Disk.Keeps name) :=
  decidable_of_iff (Disk.canonical name = name ∧ Disk.refusal? name = none ∧
    Disk.byteSize name ≤ Disk.maxName)
    ⟨fun h => ⟨h.1, h.2.1, h.2.2⟩, fun h => ⟨h.canonical, h.refusal?, h.short⟩⟩

/-- The entries of a folder go by names that the disk keeps. -/
def Disk.Spelled (entries : List (String × Item)) : Bool :=
  entries.all fun entry => decide (Disk.Keeps entry.1)

/-- A tree without links, in each folder of which every name is that of one entry and spelled as the
disk gives it back. -/
structure Item.Plain (item : Item) : Prop where
  linkFree : item.linkFree = true
  wellNamed : item.wellNamed = true
  distinct : item.everyFolder Disk.OneOfEach = true
  spelled : item.everyFolder Disk.Spelled = true

namespace Item.Plain

variable {item below : Item} {entries : List (String × Item)} {name : String} {way : List String}

theorem of_lookup (h : (Item.folder entries).Plain) (hlookup : entries.lookup name = some item) :
    item.Plain := by
  have hmem := Item.mem_of_lookup hlookup
  have hat : (Item.folder entries).at? [name] = some item := by
    rw [Item.at?, hlookup, Option.bind_some, Item.at?]
  exact ⟨Item.linkFree_of_lookup h.linkFree hlookup, (Item.wellNamedIn_iff.mp h.wellNamed _ hmem).2,
    Item.everyFolder_of_at? h.distinct hat, Item.everyFolder_of_at? h.spelled hat⟩

theorem isName (h : (Item.folder entries).Plain) (hlookup : entries.lookup name = some item) :
    IsName name :=
  (Item.wellNamedIn_iff.mp h.wellNamed _ (Item.mem_of_lookup hlookup)).1

theorem keeps (h : (Item.folder entries).Plain) (hlookup : entries.lookup name = some item) :
    Disk.Keeps name := by
  have hall := List.all_eq_true.mp (Item.everyFolder_folder_iff.mp h.spelled).1
  exact of_decide_eq_true (hall _ (Item.mem_of_lookup hlookup))

/-- What stands at the end of a way in a plain tree is plain, and the disk keeps the names on it. -/
private theorem keeps_at? (h : item.Plain) (hbelow : item.at? way = some below) :
    (∀ n ∈ way, Disk.Keeps n) ∧ below.Plain :=
  Item.holds_of_at? Item.Plain Disk.Keeps
    (fun h hlookup => ⟨h.keeps hlookup, h.of_lookup hlookup⟩) h hbelow

theorem of_at? (h : item.Plain) (hbelow : item.at? way = some below) : below.Plain :=
  (h.keeps_at? hbelow).2

/-- None of the names on a way is refused. -/
theorem refusal? (h : item.Plain) (hbelow : item.at? way = some below) :
    ∀ n ∈ way, Disk.refusal? n = none :=
  fun n hn => ((h.keeps_at? hbelow).1 n hn).refusal?

theorem lookup_iff (h : (Item.folder entries).Plain) :
    entries.lookup name = some item ↔ (name, item) ∈ entries :=
  ⟨Item.mem_of_lookup, Disk.lookup_of_mem (Item.everyFolder_folder_iff.mp h.distinct).1⟩

theorem file (contents : File) : (Item.file contents).Plain :=
  ⟨rfl, rfl, rfl, rfl⟩

theorem nil : (Item.folder []).Plain :=
  ⟨rfl, rfl, rfl, rfl⟩

/-- A tree stays plain when something plain is put in front under a new name. -/
theorem cons {rest : List (String × Item)} (hname : IsName name) (hkeeps : Disk.Keeps name)
    (hnew : name ∉ rest.map Prod.fst) (hitem : item.Plain) (hrest : (Item.folder rest).Plain) :
    (Item.folder ((name, item) :: rest)).Plain where
  linkFree := by
    have hfree := hrest.linkFree
    rw [Item.linkFree] at hfree
    rw [Item.linkFree, Item.linkFreeIn, hitem.linkFree, hfree]
    rfl
  wellNamed := by
    have hnamed := hrest.wellNamed
    rw [Item.wellNamed] at hnamed
    rw [Item.wellNamed, Item.wellNamedIn, hitem.wellNamed, hnamed, decide_eq_true hname]
    rfl
  distinct := by
    obtain ⟨hone, hin⟩ := Item.everyFolder_folder_iff.mp hrest.distinct
    refine Item.everyFolder_folder_iff.mpr ⟨?_, ?_⟩
    · exact decide_eq_true (List.nodup_cons.mpr ⟨hnew, of_decide_eq_true hone⟩)
    · rw [Item.everyFolderIn, hitem.distinct, hin]
      rfl
  spelled := by
    obtain ⟨hall, hin⟩ := Item.everyFolder_folder_iff.mp hrest.spelled
    refine Item.everyFolder_folder_iff.mpr ⟨?_, ?_⟩
    · exact List.all_eq_true.mpr (List.forall_mem_cons.mpr
        ⟨decide_eq_true hkeeps, List.all_eq_true.mp hall⟩)
    · rw [Item.everyFolderIn, hitem.spelled, hin]
      rfl

end Item.Plain

/-- Above what stands at the end of a way stands a folder. -/
theorem Item.exists_folder_of_at?_append {item below : Item} {way : List String} {name : String}
    (h : item.at? (way ++ [name]) = some below) : ∃ inner,
      item.at? way = some (.folder inner) ∧ inner.lookup name = some below := by
  rw [Item.at?_append] at h
  obtain ⟨above, habove, h⟩ := Option.bind_eq_some_iff.mp h
  cases above with
  | folder inner =>
    obtain ⟨found, hlookup, h⟩ := Option.bind_eq_some_iff.mp h
    exact ⟨inner, habove, hlookup.trans h⟩
  | _ => cases h

namespace Disk

variable {d : Disk} {f : Folder} {entries : List (String × Item)} {item : Item}
  {way : List String}

/-! ### Looking up what stands at the end of a way -/

/-- A text holds no symbol for which a path is refused. -/
def Writable (p : String) : Prop :=
  (¬∃ unit, Symbol.lone unit ∈ Text.symbols p ∧ isByteUnit unit = false) ∧
    Char.ofNat 0 ∉ p.toList

theorem Writable.intercalate (h : ∀ n ∈ way, Writable n) : Writable ("/".intercalate way) := by
  induction way with
  | nil =>
    have hnone : Text.symbols "" = [] := by decide
    rw [String.intercalate_nil]
    refine ⟨?_, by decide⟩
    rintro ⟨unit, hmem, -⟩
    rw [hnone] at hmem
    cases hmem
  | cons n rest ih =>
    obtain ⟨hn, hrest⟩ := List.forall_mem_cons.mp h
    cases rest with
    | nil => rwa [String.intercalate_singleton]
    | cons m rest =>
      obtain ⟨hunit, hzero⟩ := ih hrest
      have hslash (cs : List Char) :
          Text.symbolsOf ('/' :: cs) = .char '/' :: Text.symbolsOf cs := by
        rw [Text.symbolsOf.eq_def]
        exact if_neg (by decide)
      constructor
      · rintro ⟨unit, hmem, hbad⟩
        rw [Text.symbols, toList_intercalate, Text.symbolsOf_append_cons (by decide),
          hslash] at hmem
        rcases List.mem_append.mp hmem with hmem | hmem
        · exact hn.1 ⟨unit, hmem, hbad⟩
        · exact hunit ⟨unit, (List.mem_cons.mp hmem).resolve_left (by simp), hbad⟩
      · rw [toList_intercalate, List.mem_append, List.mem_cons]
        rintro (hmem | hmem | hmem)
        · exact hn.2 hmem
        · exact absurd hmem (by decide)
        · exact hzero hmem

theorem Writable.slash {p : String} (h : Writable p) : Writable ("/" ++ p) := by
  have hlist : ("/" ++ p).toList = '/' :: p.toList := by
    rw [String.toList_append]
    rfl
  constructor
  · rintro ⟨unit, hmem, hbad⟩
    rw [Text.symbols, hlist, Text.symbolsOf.eq_def] at hmem
    rcases List.mem_cons.mp hmem with hmem | hmem
    · cases hmem
    · exact h.1 ⟨unit, hmem, hbad⟩
  · rw [hlist, List.mem_cons]
    rintro (hzero | hzero)
    · exact absurd hzero (by decide)
    · exact h.2 hzero

/-- Below a folder that is not refused, a way of names that are not refused makes up a path that can
only be too long. -/
private theorem refusal?_path_of_names (hfolder : refusal? (f.path []) = none)
    (hway : ∀ n ∈ way, refusal? n = none) : refusal? (f.path way) =
      if maxPath < byteSize (f.path way) then some .nameTooLong else none := by
  by_cases hne : way = []
  · rw [hne, hfolder, if_neg (Nat.not_lt.mpr (byteSize_le_maxPath hfolder))]
  · have hwritable : Writable ("/" ++ "/".intercalate way) :=
      .slash (.intercalate fun n hn => not_mem_of_refusal? (hway n hn))
    have hunit : ¬(unwritable? ("/" ++ "/".intercalate way)).isSome = true := by
      rw [unwritable?, isSome_unwritableFrom]
      exact hwritable.1
    have hzero : ¬("/" ++ "/".intercalate way).toList.contains (Char.ofNat 0) = true := by
      rw [List.contains_iff_mem]
      exact hwritable.2
    rw [refusal?_path hfolder hne, if_neg hunit, if_neg hzero]

/-- The names on a way lead to what stands at its end. -/
private theorem item?_travel_of_at? {below : Item} (hplain : item.Plain)
    (h : item.at? way = some below)
    (d : Disk) (links : Nat) (above : List (String × List (String × Item))) :
    (d.travel .look links ⟨item, above⟩ way >>= Goal.item?) = .ok below := by
  induction way generalizing item above with
  | nil =>
    obtain rfl := Option.some.inj h
    exact item?_of_walk_goal (g := .there ⟨item, above⟩) rfl d links
  | cons name rest ih =>
    cases item with
    | folder entries =>
      obtain ⟨inner, hlookup, h⟩ := Option.bind_eq_some_iff.mp h
      have hname := hplain.isName hlookup
      have hkeeps := hplain.keeps hlookup
      rw [item?_cons hplain.linkFree (not_isSkipped_of_isName hname) hname.ne_up,
        if_neg (Nat.not_lt.mpr hkeeps.short), hkeeps.canonical, hlookup]
      exact ih (hplain.of_lookup hlookup) h _
    | _ => cases h

section Tree

variable (hroot : d.find (f.path []) = .ok (.folder entries))
  (hplain : (Item.folder entries).Plain)

include hroot hplain

/-- **What stands at the end of a way** is found by the path that goes on by its names, unless that
is too long. -/
theorem find_path_of_at? (h : (Item.folder entries).at? way = some item) :
    d.find (f.path way) =
      if maxPath < byteSize (f.path way) then .error .nameTooLong else .ok item := by
  have hrefusal := refusal?_path_of_names (refusal?_eq_none_of_find hroot) (hplain.refusal? h)
  split
  · next hlong =>
    rw [find_eq, locate, hrefusal, if_pos hlong]
    rfl
  · next hshort =>
    rw [if_neg hshort] at hrefusal
    obtain ⟨above, hplace⟩ := exists_locate_of_find hroot
    have hslash : ∀ n ∈ way, '/' ∉ n.toList := fun n hn =>
      (Item.isName_of_at? hplain.wellNamed h n hn).no_slash
    obtain ⟨links, hfind⟩ :=
      exists_find_path hplace (refusal?_eq_none_of_find hroot) hslash hrefusal
    rw [hfind, item?_travel_of_at? hplain h]

end Tree

end Disk

end ApiOutline
