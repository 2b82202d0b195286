import ApiOutline.Proofs.Disk.Folders
import ApiOutline.Proofs.Path.Folder
import ApiOutline.Proofs.Project.Sources
import ApiOutline.Proofs.Text.Symbols

/-!
# What a walk finds

A walk below a folder finds the sources at the ends of all ways on which every folder is gone into
and seen into, that is, has a path that is not too long (`mem_foundIn_iff`). It goes as deep as the
longest way of such folders and one more that it may not see into (`depthIn_le_iff`), and where that
is too deep it finds nothing and fails.

The ways are those of the tree of items, so none leads through a link.
-/

namespace ApiOutline

open ApiOutline.Path (IsStep IsName Folder)

/-- The path that goes on from `start` by some names. -/
def Path.below (start : String) (way : List String) : String :=
  way.foldl Path.join start

private theorem Path.below_cons (start name : String) (way : List String) :
    Path.below start (name :: way) = Path.below (Path.join start name) way := rfl

namespace Sources

variable {d : Disk} {excluded : List String} {entries : List (String × Item)} {p s : String}

/-- Something holds of every name on a way below `start` and the path that leads down to it. -/
def Along (P : String → String → Prop) (start : String) (way : List String) : Prop :=
  ∀ above name, above ++ [name] <+: way → P name (Path.below start (above ++ [name]))

/-- All folders on a way below `start` are gone into: none is hidden, none goes by the name of a
folder without sources of its own, and none is left out. -/
def Passes (excluded : List String) : String → List String → Prop :=
  Along fun name path =>
    Text.startsWith name "." = false ∧ name ∉ skippedFolders ∧ path ∉ excluded

/-- All folders on a way below `start` are seen into: no path is too long. -/
def Sees : String → List String → Prop :=
  Along fun _ path => Disk.byteSize path ≤ Disk.maxPath

/-- What stands at a path under a name is taken as a source: neither a folder nor a link that leads
to one. -/
structure Takes (d : Disk) (name path : String) (item : Item) : Prop where
  source : isSource name = true
  no_folder : item.isFolder = false
  no_way_on : ∀ target, item = .link target → d.isFolder path = false

/-- Below the folder `start` a source stands at a path, and all folders on the way to it are gone
into and seen into. -/
def Reaches (d : Disk) (excluded : List String) (start : String) (entries : List (String × Item))
    (path : String) : Prop :=
  ∃ way name item, (Item.folder entries).at? (way ++ [name]) = some item ∧
    Passes excluded start way ∧ Sees start way ∧ path = Path.below start (way ++ [name]) ∧
      Takes d name path item

/-! ### Ways -/

private theorem enters_eq_true_iff {name : String} : enters excluded name p = true ↔
    Text.startsWith name "." = false ∧ name ∉ skippedFolders ∧ p ∉ excluded := by
  simp [enters, and_assoc]

private theorem along_nil (P : String → String → Prop) (start : String) : Along P start [] := by
  intro above name h
  simp at h

private theorem along_cons_iff {P : String → String → Prop} {name : String} {way : List String} :
    Along P p (name :: way) ↔ P name (Path.join p name) ∧ Along P (Path.join p name) way := by
  constructor
  · refine fun h => ⟨h [] name (by simp), fun above last hprefix => ?_⟩
    exact h (name :: above) last (List.prefix_cons_inj name |>.mpr hprefix)
  · rintro ⟨hname, hrest⟩ above last hprefix
    cases above with
    | nil =>
      obtain ⟨rfl, -⟩ := List.cons_prefix_cons.mp hprefix
      exact hname
    | cons first above =>
      rw [List.cons_append] at hprefix
      obtain ⟨rfl, hbelow⟩ := List.cons_prefix_cons.mp hprefix
      exact hrest above last hbelow

private theorem passes_nil (excluded : List String) (start : String) : Passes excluded start [] :=
  along_nil _ _

private theorem passes_cons_iff {name : String} {way : List String} :
    Passes excluded p (name :: way) ↔
    enters excluded name (Path.join p name) = true ∧
      Passes excluded (Path.join p name) way := by
  rw [enters_eq_true_iff]
  exact along_cons_iff

private theorem sees_nil (start : String) : Sees start [] :=
  along_nil _ _

private theorem sees_cons_iff {name : String} {way : List String} : Sees p (name :: way) ↔
    Disk.isOverlong (Path.join p name) = false ∧ Sees (Path.join p name) way := by
  rw [Disk.isOverlong, decide_eq_false_iff_not, Nat.not_lt]
  exact along_cons_iff

theorem at?_cons_of_lookup {name : String} {item : Item} (h : entries.lookup name = some item)
    (way : List String) : (Item.folder entries).at? (name :: way) = item.at? way := by
  rw [Item.at?, h, Option.bind_some]

/-- What is added in front under a new name is not seen under the others. -/
private theorem at?_cons_of_ne {name : String} {item below : Item} {rest : List (String × Item)}
    (h : name ∉ rest.map Prod.fst) {way : List String} (hne : way ≠ [])
    (hbelow : (Item.folder rest).at? way = some below) :
    (Item.folder ((name, item) :: rest)).at? way = some below := by
  cases way with
  | nil => exact absurd rfl hne
  | cons first way =>
    obtain ⟨inner, hlookup, hbelow⟩ := Option.bind_eq_some_iff.mp hbelow
    have hdiffer : first ≠ name := by
      rintro rfl
      exact h (List.mem_map_of_mem (Item.mem_of_lookup hlookup))
    have hlookup' : ((name, item) :: rest).lookup first = some inner := by
      rw [List.lookup_cons, beq_eq_false_iff_ne.mpr hdiffer]
      exact hlookup
    rw [at?_cons_of_lookup hlookup', hbelow]

private theorem distinct_cons {name : String} {item : Item} {rest : List (String × Item)}
    (h : (Item.folder ((name, item) :: rest)).everyFolder Disk.OneOfEach = true) :
    name ∉ rest.map Prod.fst ∧ item.everyFolder Disk.OneOfEach = true ∧
      (Item.folder rest).everyFolder Disk.OneOfEach = true := by
  obtain ⟨hnames, hin⟩ := Item.everyFolder_folder_iff.mp h
  obtain ⟨hname, hrest⟩ := List.nodup_cons.mp (of_decide_eq_true hnames)
  rw [Item.everyFolderIn, Bool.and_eq_true] at hin
  exact ⟨hname, hin.1, Item.everyFolder_folder_iff.mpr ⟨decide_eq_true hrest, hin.2⟩⟩

/-! ### Sources -/

private theorem mem_foundIn_of_mem {name : String} {item : Item} (h : (name, item) ∈ entries)
    (hs : s ∈ found d excluded name (Path.join p name) item) :
    s ∈ foundIn d excluded p entries := by
  induction entries with
  | nil => cases h
  | cons entry rest ih =>
    rw [foundIn, List.mem_append]
    rcases List.mem_cons.mp h with rfl | h
    · exact .inl hs
    · exact .inr (ih h)

private theorem mem_found_of_takes {name : String} {item : Item} (h : Takes d name p item) :
    p ∈ found d excluded name p item := by
  cases item with
  | folder _ => cases h.no_folder
  | file _ => simp [found, h.source]
  | link target => simp [found, h.source, h.no_way_on target rfl]

private theorem mem_foundIn_of_reaches (h : Reaches d excluded p entries s) :
    s ∈ foundIn d excluded p entries := by
  obtain ⟨way, name, item, hitem, hpasses, hsees, rfl, htakes⟩ := h
  induction way generalizing p entries with
  | nil =>
    obtain ⟨item', hlookup, hitem⟩ := Option.bind_eq_some_iff.mp hitem
    obtain rfl := Option.some.inj hitem
    exact mem_foundIn_of_mem (Item.mem_of_lookup hlookup) (mem_found_of_takes htakes)
  | cons first way ih =>
    obtain ⟨inner, hlookup, hitem⟩ := Option.bind_eq_some_iff.mp hitem
    obtain ⟨henters, hpasses⟩ := passes_cons_iff.mp hpasses
    obtain ⟨hseen, hsees⟩ := sees_cons_iff.mp hsees
    cases inner with
    | folder inner =>
      refine mem_foundIn_of_mem (Item.mem_of_lookup hlookup) ?_
      have hgoes : (enters excluded first (Path.join p first) &&
          !Disk.isOverlong (Path.join p first)) = true := by rw [henters, hseen]; rfl
      rw [found, if_pos hgoes]
      exact ih hitem hpasses hsees htakes
    | _ => cases way <;> cases hitem

-- the induction is over the tree of items, as the walk is

mutual

private theorem exists_of_mem_found :
    ∀ (item : Item) {name p : String}, s ∈ found d excluded name p item →
    item.everyFolder Disk.OneOfEach = true → (Takes d name p item ∧ s = p) ∨
      ∃ inner, item = .folder inner ∧ enters excluded name p = true ∧ Disk.isOverlong p = false ∧
        Reaches d excluded p inner s
  | .folder inner, name, p, h, hdistinct => by
    rw [found] at h
    split at h
    · next hgoes =>
      rw [Bool.and_eq_true, Bool.not_eq_true'] at hgoes
      exact .inr ⟨inner, rfl, hgoes.1, hgoes.2, reaches_of_mem_foundIn inner h hdistinct⟩
    · cases h
  | .file _, name, p, h, _ => by
    rw [found] at h
    split at h
    · next hsource => exact .inl ⟨⟨hsource, rfl, nofun⟩, List.mem_singleton.mp h⟩
    · cases h
  | .link target, name, p, h, _ => by
    rw [found] at h
    split at h
    · next hsource =>
      rw [Bool.and_eq_true, Bool.not_eq_true'] at hsource
      exact .inl ⟨⟨hsource.1, rfl, fun _ _ => hsource.2⟩, List.mem_singleton.mp h⟩
    · cases h

private theorem reaches_of_mem_foundIn : ∀ (entries : List (String × Item)) {p : String},
    s ∈ foundIn d excluded p entries →
    (Item.folder entries).everyFolder Disk.OneOfEach = true → Reaches d excluded p entries s
  | [], p, h, _ => by
    rw [foundIn] at h
    cases h
  | (name, item) :: rest, p, h, hdistinct => by
    obtain ⟨hname, hitem, hrest⟩ := distinct_cons hdistinct
    have hfirst (way : List String) := at?_cons_of_lookup
      (List.lookup_cons_self : ((name, item) :: rest).lookup name = some item) way
    rw [foundIn] at h
    rcases List.mem_append.mp h with h | h
    · rcases exists_of_mem_found item h hitem with
        ⟨htakes, rfl⟩ | ⟨inner, rfl, henters, hseen, hreaches⟩
      · exact ⟨[], name, item, hfirst [], passes_nil _ _, sees_nil _, rfl, htakes⟩
      · obtain ⟨way, last, found, hfound, hpasses, hsees, hs, htakes⟩ := hreaches
        exact ⟨name :: way, last, found, (hfirst (way ++ [last])).trans hfound,
          passes_cons_iff.mpr ⟨henters, hpasses⟩, sees_cons_iff.mpr ⟨hseen, hsees⟩, hs, htakes⟩
    · obtain ⟨way, last, found, hfound, hpasses, hsees, hs, htakes⟩ :=
        reaches_of_mem_foundIn rest h hrest
      exact ⟨way, last, found, at?_cons_of_ne hname (by simp) hfound, hpasses, hsees, hs, htakes⟩

end

/-- **The walk finds** exactly what stands at the end of a way on which all folders are gone into
and seen into. -/
theorem mem_foundIn_iff (hdistinct : (Item.folder entries).everyFolder Disk.OneOfEach = true) :
    s ∈ foundIn d excluded p entries ↔ Reaches d excluded p entries s :=
  ⟨fun h => reaches_of_mem_foundIn entries h hdistinct, mem_foundIn_of_reaches⟩

/-! ### Depth -/

/-- A way leads down to a folder, and all folders on it are gone into, and those above the last
seen into. -/
structure Enters (excluded : List String) (start : String) (entries : List (String × Item))
    (way : List String) : Prop where
  folder : ∃ inner, (Item.folder entries).at? way = some (.folder inner)
  passes : Passes excluded start way
  sees : Sees start way.dropLast

private theorem sees_dropLast_cons_iff {name : String} {way : List String} :
    Sees p (name :: way).dropLast ↔
      way = [] ∨
        Disk.isOverlong (Path.join p name) = false ∧ Sees (Path.join p name) way.dropLast := by
  cases way with
  | nil => exact iff_of_true (sees_nil p) (.inl rfl)
  | cons next way =>
    rw [List.dropLast_cons_cons, sees_cons_iff]
    exact (or_iff_right (List.cons_ne_nil next way)).symm

private theorem depth_le_depthIn_of_mem {name : String} {item : Item} (h : (name, item) ∈ entries) :
    depth excluded name (Path.join p name) item ≤ depthIn excluded p entries := by
  induction entries with
  | nil => cases h
  | cons entry rest ih =>
    rw [depthIn]
    rcases List.mem_cons.mp h with rfl | h
    · exact Nat.le_max_left _ _
    · exact (ih h).trans (Nat.le_max_right _ _)

private theorem length_le_depthIn {way : List String} (h : Enters excluded p entries way) :
    way.length ≤ depthIn excluded p entries := by
  obtain ⟨⟨inner, hinner⟩, hpasses, hsees⟩ := h
  induction way generalizing p entries with
  | nil => exact Nat.zero_le _
  | cons name way ih =>
    obtain ⟨item, hlookup, hinner⟩ := Option.bind_eq_some_iff.mp hinner
    obtain ⟨henters, hpasses⟩ := passes_cons_iff.mp hpasses
    cases item with
    | folder entries' =>
      refine le_trans ?_ (depth_le_depthIn_of_mem (Item.mem_of_lookup hlookup))
      rw [depth, henters, Bool.not_true, if_neg Bool.false_ne_true]
      rcases sees_dropLast_cons_iff.mp hsees with rfl | ⟨hseen, hsees⟩
      · -- the last folder counts whether it is seen into or not
        split
        · exact le_rfl
        · exact Nat.le_add_left 1 _
      · rw [hseen, if_neg Bool.false_ne_true]
        exact Nat.succ_le_succ (ih hpasses hsees hinner)
    | _ => cases way <;> cases hinner

private theorem enters_nil (excluded : List String) (start : String)
    (entries : List (String × Item)) :
    Enters excluded start entries [] :=
  ⟨⟨entries, by rw [Item.at?]⟩, passes_nil _ _, sees_nil _⟩

theorem Enters.cons {name : String} {inner : List (String × Item)} {rest : List (String × Item)}
    {way : List String} (henters : enters excluded name (Path.join p name) = true)
    (hseen : way = [] ∨ Disk.isOverlong (Path.join p name) = false)
    (h : Enters excluded (Path.join p name) inner way) :
    Enters excluded p ((name, .folder inner) :: rest) (name :: way) :=
  ⟨h.folder.imp fun _ hitem => (at?_cons_of_lookup List.lookup_cons_self way).trans hitem,
    passes_cons_iff.mpr ⟨henters, h.passes⟩,
    sees_dropLast_cons_iff.mpr (hseen.imp_right fun hseen => ⟨hseen, h.sees⟩)⟩

theorem Enters.skip {name : String} {item : Item} {rest : List (String × Item)}
    (hname : name ∉ rest.map Prod.fst) {way : List String} (h : Enters excluded p rest way) :
    Enters excluded p ((name, item) :: rest) way := by
  by_cases hne : way = []
  · rw [hne]
    exact enters_nil _ _ _
  · exact ⟨h.folder.imp fun _ hitem => at?_cons_of_ne hname hne hitem, h.passes, h.sees⟩

-- once more the induction is over the tree of items

mutual

private theorem depth_le : ∀ (item : Item) {name p : String} {n : Nat},
    item.everyFolder Disk.OneOfEach = true →
    (∀ inner, item = .folder inner → enters excluded name p = true →
      ∀ way, (way = [] ∨ Disk.isOverlong p = false) → Enters excluded p inner way →
        way.length + 1 ≤ n) → depth excluded name p item ≤ n
  | .folder inner, name, p, n, hdistinct, h => by
    rw [depth]
    split
    · exact Nat.zero_le _
    · next henters =>
      have hlength := h inner rfl (by simpa using henters)
      obtain ⟨n, rfl⟩ := Nat.exists_eq_succ_of_ne_zero
        (Nat.one_le_iff_ne_zero.mp (hlength [] (.inl rfl) (enters_nil _ _ _)))
      split
      · exact Nat.le_add_left 1 n
      · next hseen =>
        exact Nat.succ_le_succ (depthIn_le inner hdistinct fun way hway =>
          Nat.le_of_succ_le_succ (hlength way (.inr (Bool.eq_false_of_not_eq_true hseen)) hway))
  | .file _, _, _, _, _, _ => Nat.zero_le _
  | .link _, _, _, _, _, _ => Nat.zero_le _

private theorem depthIn_le : ∀ (entries : List (String × Item)) {p : String} {n : Nat},
    (Item.folder entries).everyFolder Disk.OneOfEach = true →
    (∀ way, Enters excluded p entries way → way.length ≤ n) → depthIn excluded p entries ≤ n
  | [], _, _, _, _ => Nat.zero_le _
  | (name, item) :: rest, p, n, hdistinct, h => by
    obtain ⟨hname, hitem, hrest⟩ := distinct_cons hdistinct
    rw [depthIn]
    refine Nat.max_le.mpr ⟨?_, ?_⟩
    · refine depth_le item hitem ?_
      rintro inner rfl henters way hseen hway
      exact h (name :: way) (hway.cons henters hseen)
    · exact depthIn_le rest hrest fun way hway => h way (hway.skip hname)

end

/-- **The walk goes as deep** as the longest way of folders that are gone into and, but for the
last, seen into. -/
theorem depthIn_le_iff (hdistinct : (Item.folder entries).everyFolder Disk.OneOfEach = true)
    {n : Nat} : depthIn excluded p entries ≤ n ↔
      ∀ way, Enters excluded p entries way → way.length ≤ n :=
  ⟨fun h _ hway => (length_le_depthIn hway).trans h, depthIn_le entries hdistinct⟩

/-! ### Paths told apart -/

theorem below_path {f : Folder} {steps way : List String} (hsteps : ∀ s ∈ steps, IsStep s)
    (hway : ∀ s ∈ way, IsStep s) : Path.below (f.path steps) way = f.path (steps ++ way) := by
  induction way generalizing steps with
  | nil => rw [List.append_nil, Path.below, List.foldl_nil]
  | cons name way ih =>
    obtain ⟨hname, hway⟩ := List.forall_mem_cons.mp hway
    rw [Path.below_cons, Folder.join_path hsteps hname,
      ih (Path.isStep_append_singleton hsteps hname) hway, List.append_assoc,
      List.singleton_append]

/-- A path that is reached goes on by the name of an entry. -/
private theorem Reaches.exists_first (h : Reaches d excluded p entries s)
    (hnamed : Item.wellNamedIn entries = true) : ∃ first rest, first ∈ entries.map Prod.fst ∧
      (∀ n ∈ first :: rest, IsName n) ∧ s = Path.below p (first :: rest) := by
  obtain ⟨way, name, item, hitem, -, -, hs, -⟩ := h
  have hfolder : (Item.folder entries).wellNamed = true := by rwa [Item.wellNamed]
  have hnames := Item.isName_of_at? hfolder hitem
  cases hsplit : way ++ [name] with
  | nil => simp at hsplit
  | cons first rest =>
    rw [hsplit] at hitem hnames hs
    obtain ⟨inner, hlookup, -⟩ := Option.bind_eq_some_iff.mp hitem
    exact ⟨first, rest, List.mem_map_of_mem (Item.mem_of_lookup hlookup), hnames, hs⟩

-- the induction is over the tree of items, as the walk is

mutual

private theorem nodup_found (f : Folder) : ∀ (item : Item) {steps : List String} {name : String},
    (∀ s ∈ steps, IsStep s) → item.wellNamed = true →
    item.everyFolder Disk.OneOfEach = true → (found d excluded name (f.path steps) item).Nodup
  | .folder inner, steps, name, hsteps, hnamed, hdistinct => by
    rw [found]
    split
    · exact nodup_foundIn f inner hsteps hnamed hdistinct
    · exact List.nodup_nil
  | .file _, _, _, _, _, _ => by
    rw [found]
    split
    · exact List.nodup_singleton _
    · exact List.nodup_nil
  | .link _, _, _, _, _, _ => by
    rw [found]
    split
    · exact List.nodup_singleton _
    · exact List.nodup_nil

theorem nodup_foundIn (f : Folder) : ∀ (entries : List (String × Item)) {steps : List String},
    (∀ s ∈ steps, IsStep s) → Item.wellNamedIn entries = true →
    (Item.folder entries).everyFolder Disk.OneOfEach = true →
    (foundIn d excluded (f.path steps) entries).Nodup
  | [], _, _, _, _ => by
    rw [foundIn]
    exact List.nodup_nil
  | (name, item) :: rest, steps, hsteps, hnamed, hdistinct => by
    obtain ⟨hname, hitem, hrest⟩ := distinct_cons hdistinct
    obtain ⟨hisName, hnamedItem, hnamedRest⟩ := Item.wellNamedIn_cons_iff.mp hnamed
    rw [foundIn, Folder.join_path hsteps hisName.toIsStep]
    refine List.nodup_append.mpr ⟨nodup_found f item
      (Path.isStep_append_singleton hsteps hisName.toIsStep) hnamedItem hitem,
      nodup_foundIn f rest hsteps hnamedRest hrest, ?_⟩
    rintro s hs t ht rfl
    -- the two paths go on by different names
    have hone : s ∈ foundIn d excluded (f.path steps) [(name, item)] := by
      rw [foundIn, foundIn, List.append_nil, Folder.join_path hsteps hisName.toIsStep]
      exact hs
    have hdistinctOne : (Item.folder [(name, item)]).everyFolder Disk.OneOfEach = true :=
      Item.everyFolder_folder_iff.mpr
        ⟨by simp [Disk.OneOfEach], by simp [Item.everyFolderIn, hitem]⟩
    have hnamedOne : Item.wellNamedIn [(name, item)] = true := by
      simp [Item.wellNamedIn, hisName, hnamedItem]
    obtain ⟨first, way, hfirst, hway, hs⟩ :=
      (reaches_of_mem_foundIn _ hone hdistinctOne).exists_first hnamedOne
    obtain ⟨first', way', hfirst', hway', ht⟩ :=
      (reaches_of_mem_foundIn rest ht hrest).exists_first hnamedRest
    have hstep : ∀ s ∈ first :: way, IsStep s := fun s hs => (hway s hs).toIsStep
    have hstep' : ∀ s ∈ first' :: way', IsStep s := fun s hs => (hway' s hs).toIsStep
    rw [hs, below_path hsteps hstep, below_path hsteps hstep',
      Folder.path_inj (List.forall_mem_append.mpr ⟨hsteps, hstep⟩)
        (List.forall_mem_append.mpr ⟨hsteps, hstep'⟩)] at ht
    have heq := (List.cons.inj (List.append_cancel_left ht)).1
    rw [List.map_singleton, List.mem_singleton] at hfirst
    rw [← heq, hfirst] at hfirst'
    exact hname hfirst'

end

/-! ### What is returned -/

private theorem exists_folder_absolute (hcwd : Path.isAbsolute d.cwd = true) (path : String) :
    ∃ f : Folder, d.absolute path = f.path [] := by
  have habs := Path.isAbsolute_join hcwd path
  obtain ⟨root, names, hroot, hnames, heq⟩ := Path.exists_spell_of_normal
    (Path.isAbsolute_normalize habs) (Path.normalize_normalize habs)
  refine ⟨⟨root, names, hroot, hnames⟩, ?_⟩
  rw [Disk.absolute, Path.absolute, heq, Folder.path, List.append_nil]

/-- **What a walk below a folder returns**: in strict order the sources at the ends of all ways on
which every folder is gone into and seen into. It returns unless some way goes too deep. -/
theorem discover_finds (hcwd : Path.isAbsolute d.cwd = true) (hnamed : d.WellNamed)
    (hdistinct : d.Distinct) (folder : String) (excluded : List String) :
    ((∃ paths, (discover d folder excluded).result = .ok paths) ↔
      ∃ entries, d.scan (d.absolute folder) = .ok entries ∧
        ∀ way, Enters (excluded.map d.absolute) (d.absolute folder) entries way →
          way.length ≤ d.limits.walk) ∧
    ∀ paths, (discover d folder excluded).result = .ok paths →
      ∃ entries, d.scan (d.absolute folder) = .ok entries ∧ paths.Pairwise Text.Before ∧
        ∀ s, s ∈ paths ↔ Reaches d (excluded.map d.absolute) (d.absolute folder) entries s := by
  have hinner {entries : List (String × Item)} (h : d.scan (d.absolute folder) = .ok entries) :=
    Disk.everyFolder_of_scan hdistinct rfl h
  constructor
  · constructor
    · rintro ⟨paths, h⟩
      obtain ⟨entries, hentries, hdepth, -⟩ := discover_eq_ok_iff.mp h
      exact ⟨entries, hentries, (depthIn_le_iff (hinner hentries)).mp hdepth⟩
    · rintro ⟨entries, hentries, hdepth⟩
      exact ⟨_, discover_eq_ok_iff.mpr
        ⟨entries, hentries, (depthIn_le_iff (hinner hentries)).mpr hdepth, rfl⟩⟩
  · intro paths h
    obtain ⟨entries, hentries, -, rfl⟩ := discover_eq_ok_iff.mp h
    obtain ⟨f, hf⟩ := exists_folder_absolute hcwd folder
    refine ⟨entries, hentries, Text.pairwise_before_mergeSort ?_, fun s => ?_⟩
    · rw [hf]
      exact nodup_foundIn f entries (List.forall_mem_nil _)
        (Disk.wellNamedIn_of_scan hnamed hentries) (hinner hentries)
    · rw [sorted, List.mem_mergeSort, mem_foundIn_iff (hinner hentries)]

/-- A package inside a folder of dependencies, with a hidden folder, one of build results, one of
its own output and one of sources. -/
def inside : Disk where
  entries := [("node_modules", .folder [("w", .folder [
    (".git", .folder [("g.ts", .file ⟨[], none, none⟩)]),
    ("dist", .folder [("o.ts", .file ⟨[], none, none⟩)]),
    ("out", .folder [("q.ts", .file ⟨[], none, none⟩)]),
    ("src", .folder [("a.ts", .file ⟨[], none, none⟩), ("dist", .link "nowhere")])])])]
  cwd := "/node_modules"
  limits := .uniform 8

/-- Below the package only its sources are found, whatever it lies in. -/
theorem discover_finds_inside : ∃ paths,
    (discover inside "w" ["w/./out"]).result = .ok paths ∧ paths.Pairwise Text.Before ∧
    ∀ s, s ∈ paths ↔ s = "/node_modules/w/src/a.ts" := by
  obtain ⟨hreturns, hpaths⟩ := discover_finds (d := inside) (by decide) (by decide +kernel)
    (by decide +kernel) "w" ["w/./out"]
  have hscan : ∃ entries, inside.scan (inside.absolute "w") = .ok entries ∧
      depthIn (["w/./out"].map inside.absolute) (inside.absolute "w") entries ≤ inside.limits.walk ∧
      foundIn inside (["w/./out"].map inside.absolute) (inside.absolute "w") entries =
        ["/node_modules/w/src/a.ts"] ∧
      (Item.folder entries).everyFolder Disk.OneOfEach = true := by decide +kernel
  obtain ⟨entries, hentries, hdepth, hfound, hdistinct⟩ := hscan
  obtain ⟨paths, h⟩ := hreturns.mpr ⟨entries, hentries, (depthIn_le_iff hdistinct).mp hdepth⟩
  obtain ⟨entries', hentries', hsorted, hmem⟩ := hpaths paths h
  obtain rfl := Except.ok.inj (hentries.symm.trans hentries')
  refine ⟨paths, h, hsorted, fun s => ?_⟩
  rw [hmem, ← mem_foundIn_iff hdistinct, hfound, List.mem_singleton]

/-! ### Links and long paths -/

/-- A folder with a source, and a link under the name of a source that leads to it. -/
def linked : Disk where
  entries := [("sub", .folder [("a.ts", .file ⟨[], none, none⟩)]), ("x.ts", .link "sub")]
  cwd := "/"
  limits := .uniform 8

/-- Some folders, one inside the other, and in the innermost a source. -/
def nested : Nat → List (String × Item)
  | 0 => [("a.ts", .file ⟨[], none, none⟩)]
  | n + 1 => [("a", .folder (nested n))]

private theorem everyFolder_nested (n : Nat) :
    (Item.folder (nested n)).everyFolder Disk.OneOfEach = true := by
  induction n with
  | zero => decide +kernel
  | succ n ih =>
    exact Item.everyFolder_folder_iff.mpr ⟨by simp [nested, Disk.OneOfEach],
      by simp [nested, Item.everyFolderIn, ih]⟩

/-- The one source stands in the innermost folder. -/
private theorem at?_nested (n : Nat) :
    (Item.folder (nested n)).at? (List.replicate n "a" ++ ["a.ts"]) =
    some (.file ⟨[], none, none⟩) := by
  induction n with
  | zero => rfl
  | succ n ih =>
    rw [List.replicate_succ, List.cons_append, nested,
      at?_cons_of_lookup List.lookup_cons_self, ih]

/-- No way to a folder is longer than the folders are many. -/
private theorem length_le_of_at?_nested {n : Nat} {way : List String} {inner : List (String × Item)}
    (h : (Item.folder (nested n)).at? way = some (.folder inner)) : way.length ≤ n := by
  induction n generalizing way with
  | zero =>
    cases way with
    | nil => exact le_rfl
    | cons name rest =>
      obtain ⟨item, hlookup, hat⟩ := Option.bind_eq_some_iff.mp h
      obtain ⟨-, rfl⟩ := Prod.mk.inj (List.mem_singleton.mp (Item.mem_of_lookup hlookup))
      cases rest <;> cases hat
  | succ n ih =>
    cases way with
    | nil => exact Nat.zero_le _
    | cons name rest =>
      obtain ⟨item, hlookup, hat⟩ := Option.bind_eq_some_iff.mp h
      obtain ⟨-, rfl⟩ := Prod.mk.inj (List.mem_singleton.mp (Item.mem_of_lookup hlookup))
      exact Nat.succ_le_succ (ih hat)

/-- What is no folder stands in the innermost one. -/
private theorem way_eq_of_at?_nested {n : Nat} {way : List String} {name : String} {item : Item}
    (h : (Item.folder (nested n)).at? (way ++ [name]) = some item) (hitem : item.isFolder = false) :
    way = List.replicate n "a" := by
  induction n generalizing way with
  | zero =>
    cases way with
    | nil => rfl
    | cons first rest =>
      obtain ⟨inner, hlookup, hat⟩ := Option.bind_eq_some_iff.mp h
      obtain ⟨-, rfl⟩ := Prod.mk.inj (List.mem_singleton.mp (Item.mem_of_lookup hlookup))
      cases rest <;> cases hat
  | succ n ih =>
    cases way with
    | nil =>
      obtain ⟨inner, hlookup, hat⟩ := Option.bind_eq_some_iff.mp h
      obtain ⟨-, rfl⟩ := Prod.mk.inj (List.mem_singleton.mp (Item.mem_of_lookup hlookup))
      rw [Item.at?] at hat
      rw [← Option.some.inj hat] at hitem
      cases hitem
    | cons first rest =>
      obtain ⟨inner, hlookup, hat⟩ := Option.bind_eq_some_iff.mp h
      obtain ⟨rfl, rfl⟩ := Prod.mk.inj (List.mem_singleton.mp (Item.mem_of_lookup hlookup))
      rw [ih hat, List.replicate_succ]

/-- The root folder of a disk that is seen from there. -/
theorem find_root (entries : List (String × Item)) (limits : Limits) :
    (Disk.mk entries "/" limits).find "/" = .ok (.folder entries) := by
  have hfits : Disk.refusal? "/" = none := by decide +kernel
  have hway : Path.segments (Path.join "/" "/") = ["", ""] := by decide +kernel
  rw [Disk.find, Disk.locate, hfits]
  dsimp only
  rw [Disk.wayOf, if_neg (by decide), hway]
  rfl

theorem scan_root (entries : List (String × Item)) (limits : Limits) :
    (Disk.mk entries "/" limits).scan "/" = .ok entries := by
  rw [Disk.scan, find_root]

/-- A path below the root takes the bytes of its names and those of as many slashes. -/
theorem sum_le_byteSize_below {way : List String} (h : ∀ s ∈ way, IsStep s) :
    (way.map fun n => Disk.byteSize n + 1).sum ≤ Disk.byteSize (Path.below "/" way) := by
  by_cases hne : way = []
  · rw [hne]
    exact Nat.zero_le _
  let f : Folder := ⟨"/", [], .inl rfl, List.forall_mem_nil _⟩
  have hroot : "/" = f.path [] := by decide
  obtain ⟨front, -, hpath⟩ := f.exists_toList_path_steps
  have hsize := Disk.byteSize_of_toList (hpath way hne)
  rw [String.ofList_toList] at hsize
  have hbelow : Path.below "/" way = f.path way := by
    rw [hroot, below_path (List.forall_mem_nil _) h, List.nil_append]
  rw [← Disk.byteSize_intercalate_add_one hne, hbelow, hsize]
  omega

/-- Where so many folders lie one inside the other, the path of the innermost is too long. -/
private theorem not_sees_replicate {n : Nat} (h : Disk.maxPath < (n + 1) * 2) :
    ¬Sees "/" (List.replicate (n + 1) "a") := by
  intro hsees
  have hname : IsName "a" := by decide
  have hone : Disk.byteSize "a" = 1 := by decide
  have hsplit : List.replicate (n + 1) "a" = List.replicate n "a" ++ ["a"] := List.replicate_succ'
  have hshort := hsees (List.replicate n "a") "a" (hsplit ▸ List.prefix_rfl)
  have hsteps : ∀ s ∈ List.replicate (n + 1) "a", IsStep s :=
    fun s hs => List.eq_of_mem_replicate hs ▸ hname.toIsStep
  have hsum := sum_le_byteSize_below hsteps
  rw [← hsplit] at hshort
  rw [List.map_replicate, List.sum_replicate_nat, hone] at hsum
  exact absurd (h.trans_le (hsum.trans hshort)) (lt_irrefl _)

/-- **A walk does not return everything**: a link that leads to a folder is neither listed nor
followed, and what lies in a folder whose path is too long is passed over, however deep the walk may
go. -/
theorem discover_leaves_out :
    (linked.isFile "/x.ts/a.ts" = true ∧ linked.isFolder "/x.ts" = true ∧
      Passes [] "/" ["x.ts"] ∧ isSource "x.ts" = true ∧ isSource "a.ts" = true ∧
      (discover linked "/" []).result = .ok ["/sub/a.ts"]) ∧
    (Item.folder (nested 2048)).at? (List.replicate 2048 "a" ++ ["a.ts"]) =
      some (.file ⟨[], none, none⟩) ∧
    Passes [] "/" (List.replicate 2048 "a") ∧
    ∀ limits : Limits, 2048 ≤ limits.walk →
      (discover ⟨nested 2048, "/", limits⟩ "/" []).result = .ok [] := by
  refine ⟨⟨by decide +kernel, by decide +kernel, ?_, by decide, by decide, ?_⟩,
    at?_nested 2048, ?_, fun limits hroom => ?_⟩
  · exact passes_cons_iff.mpr ⟨by decide +kernel, passes_nil _ _⟩
  · have hfound : ∃ entries, linked.scan (linked.absolute "/") = .ok entries ∧
        depthIn ([].map linked.absolute) (linked.absolute "/") entries ≤ linked.limits.walk ∧
        foundIn linked ([].map linked.absolute) (linked.absolute "/") entries = ["/sub/a.ts"] := by
      decide +kernel
    obtain ⟨entries, hentries, hdepth, hfound⟩ := hfound
    refine discover_eq_ok_iff.mpr ⟨entries, hentries, hdepth, ?_⟩
    rw [hfound, sorted, List.mergeSort_singleton]
  · intro above name hprefix
    have hmem : name ∈ List.replicate 2048 "a" := hprefix.subset (by simp)
    obtain rfl := List.eq_of_mem_replicate hmem
    exact ⟨by decide, by decide, List.not_mem_nil⟩
  · have hroot : (Disk.mk (nested 2048) "/" limits).absolute "/" = "/" := by
      have habsolute : Path.absolute "/" "/" = "/" := by decide +kernel
      exact habsolute
    have hdistinct := everyFolder_nested 2048
    refine discover_eq_ok_iff.mpr ⟨nested 2048, ?_, ?_, ?_⟩
    · rw [hroot]
      exact scan_root _ _
    · refine (depthIn_le_iff hdistinct).mpr fun way hway => ?_
      obtain ⟨inner, hat⟩ := hway.folder
      exact (length_le_of_at?_nested hat).trans hroom
    · have hnone : foundIn ⟨nested 2048, "/", limits⟩ [] "/" (nested 2048) = [] := by
        refine List.eq_nil_iff_forall_not_mem.mpr fun s hs => ?_
        obtain ⟨way, name, item, hat, -, hsees, -, htakes⟩ := (mem_foundIn_iff hdistinct).mp hs
        rw [way_eq_of_at?_nested hat htakes.no_folder] at hsees
        exact not_sees_replicate (by decide) hsees
      rw [List.map_nil, hroot, hnone, sorted, List.mergeSort_nil]

end Sources

end ApiOutline
