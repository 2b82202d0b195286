import ApiOutline.Proofs.Disk.Plain
import ApiOutline.Proofs.Relocation.Search
import ApiOutline.Proofs.Sources.Walk

/-!
# Searching for everything

The pattern `**/*` stands for every file at or below a folder. A search for it goes into all folders
and looks at all that stands in them. In a plain tree it fails where a folder lies too deep or where
a path is too long, and nowhere else (`exists_glob_everything_iff`). Otherwise it finds all files
(`mem_glob_everything_iff`), also those in folders without sources of their own.
-/

namespace ApiOutline

open ApiOutline.Path (IsStep IsName Folder)

namespace Disk

variable {d : Disk} {f : Folder} {entries : List (String × Item)} {item : Item}
  {steps way : List String}

/-! ### The folders below a folder -/

section Folders

variable {cause : Cause} {room : Nat}

theorem mem_foldersAmong_iff {p : String} {x : Find} : x ∈ foldersAmong d cause room p entries ↔
    ∃ name item, (name, item) ∈ entries ∧ x ∈ foldersAt d cause room p name item := by
  induction entries with
  | nil => simp [foldersAmong]
  | cons entry rest ih =>
    obtain ⟨name, item⟩ := entry
    rw [foldersAmong_cons, List.mem_append, ih]
    simp [or_and_right, exists_or]

/-- The folders below some entries lie at most `room` deep, and their paths, which go on from
`steps`, are not too long. -/
def FoldersFit (f : Folder) (room : Nat) (steps : List String) (entries : List (String × Item)) :
    Prop :=
  ∀ way inner, way ≠ [] → (Item.folder entries).at? way = some (.folder inner) →
    way.length ≤ room ∧ byteSize (f.path (steps ++ way)) ≤ maxPath

theorem FoldersFit.enter {name : String} {inner : List (String × Item)}
    (h : FoldersFit f room steps entries) (hlookup : entries.lookup name = some (.folder inner)) :
    ∃ rest, room = rest + 1 ∧ byteSize (f.path (steps ++ [name])) ≤ maxPath ∧
      FoldersFit f rest (steps ++ [name]) inner := by
  have hfirst (way : List String) := Sources.at?_cons_of_lookup hlookup way
  obtain ⟨hroom, hshort⟩ := h [name] inner (List.cons_ne_nil _ _) ((hfirst []).trans rfl)
  obtain ⟨rest, rfl⟩ := Nat.exists_eq_succ_of_ne_zero (Nat.one_le_iff_ne_zero.mp hroom)
  refine ⟨rest, rfl, hshort, fun way below _ hbelow => ?_⟩
  obtain ⟨hroom, hshort⟩ := h (name :: way) below (List.cons_ne_nil _ _)
    ((hfirst way).trans hbelow)
  rw [List.append_assoc, List.singleton_append]
  exact ⟨Nat.le_of_succ_le_succ hroom, hshort⟩

/-- A way to a folder below goes into a folder first. -/
private theorem exists_lookup_of_at?_folder {below : List (String × Item)} (hne : way ≠ [])
    (h : (Item.folder entries).at? way = some (.folder below)) :
    ∃ name rest inner, way = name :: rest ∧ entries.lookup name = some (.folder inner) ∧
      (Item.folder inner).at? rest = some (.folder below) := by
  obtain ⟨name, rest, rfl⟩ := List.exists_cons_of_ne_nil hne
  obtain ⟨item, hlookup, hat⟩ := Option.bind_eq_some_iff.mp h
  cases item with
  | folder inner => exact ⟨name, rest, inner, rfl, hlookup, hat⟩
  | _ => cases rest <;> cases hat

/-- Among plain entries only folders are come upon. -/
private theorem mem_foldersAmong_iff_of_plain (hplain : (Item.folder entries).Plain) {p : String}
    {x : Find} : x ∈ foldersAmong d cause room p entries ↔
      ∃ name inner, entries.lookup name = some (.folder inner) ∧
        x ∈ foldersAt d cause room p name (.folder inner) := by
  rw [mem_foldersAmong_iff]
  constructor
  · rintro ⟨name, item, hmem, hx⟩
    have hlookup := hplain.lookup_iff.mpr hmem
    cases item with
    | folder inner => exact ⟨name, inner, hlookup, hx⟩
    | file _ => cases hx
    | link _ => cases (hplain.of_lookup hlookup).linkFree
  · rintro ⟨name, inner, hlookup, hx⟩
    exact ⟨name, .folder inner, Item.mem_of_lookup hlookup, hx⟩

/-- Where the folders fit, all of them are come upon, and nothing else. -/
theorem FoldersFit.mem_foldersAmong_iff (h : FoldersFit f room steps entries)
    (hplain : (Item.folder entries).Plain) (hsteps : ∀ s ∈ steps, IsStep s) {x : Find} :
    x ∈ foldersAmong d cause room (f.path steps) entries ↔ ∃ way inner, way ≠ [] ∧
      (Item.folder entries).at? way = some (.folder inner) ∧
        x = .path (f.path (steps ++ way)) := by
  induction room using Nat.strong_induction_on generalizing steps entries with
  | _ room ih =>
    -- what is come upon at one of the folders is the folder, and what is come upon in it
    have hone {name : String} {inner : List (String × Item)}
        (hlookup : entries.lookup name = some (.folder inner)) :
        x ∈ foldersAt d cause room (f.path steps) name (.folder inner) ↔
          x = .path (f.path (steps ++ [name])) ∨ ∃ way below, way ≠ [] ∧
            (Item.folder inner).at? way = some (.folder below) ∧
              x = .path (f.path (steps ++ name :: way)) := by
      have hname := (hplain.isName hlookup).toIsStep
      obtain ⟨rest, rfl, hshort, hinner⟩ := h.enter hlookup
      rw [foldersAt_folder, child_path hsteps hname, if_neg (Nat.not_lt.mpr hshort), List.mem_cons,
        ih rest (Nat.lt_succ_self rest) hinner (hplain.of_lookup hlookup)
          (Path.isStep_append_singleton hsteps hname)]
      simp only [List.append_assoc, List.singleton_append]
    rw [mem_foldersAmong_iff_of_plain hplain]
    constructor
    · rintro ⟨name, inner, hlookup, hx⟩
      have hfirst (way : List String) := Sources.at?_cons_of_lookup hlookup way
      rcases (hone hlookup).mp hx with rfl | ⟨way, below, -, hbelow, rfl⟩
      · exact ⟨[name], inner, List.cons_ne_nil _ _, (hfirst []).trans rfl, rfl⟩
      · exact ⟨name :: way, below, List.cons_ne_nil _ _, (hfirst way).trans hbelow, rfl⟩
    · rintro ⟨way, below, hne, hway, rfl⟩
      obtain ⟨name, rest, inner, rfl, hlookup, hbelow⟩ := exists_lookup_of_at?_folder hne hway
      refine ⟨name, inner, hlookup, (hone hlookup).mpr ?_⟩
      by_cases hrest : rest = []
      · exact .inl (by rw [hrest])
      · exact .inr ⟨rest, below, hrest, hbelow, rfl⟩

/-- Where nothing stops the search for folders, they fit. -/
private theorem foldersFit_of_no_fault (hplain : (Item.folder entries).Plain)
    (hsteps : ∀ s ∈ steps, IsStep s)
    (h : ∀ fault, .fault fault ∉ foldersAmong d cause room (f.path steps) entries) :
    FoldersFit f room steps entries := by
  induction room generalizing steps entries with
  | zero =>
    intro way below hne hat
    obtain ⟨name, rest, inner, rfl, hlookup, -⟩ := exists_lookup_of_at?_folder hne hat
    exact absurd ((mem_foldersAmong_iff_of_plain hplain).mpr
      ⟨name, inner, hlookup, List.mem_singleton_self _⟩) (h _)
  | succ room ih =>
    intro way below hne hat
    obtain ⟨name, rest, inner, rfl, hlookup, hat⟩ := exists_lookup_of_at?_folder hne hat
    have hname := (hplain.isName hlookup).toIsStep
    have hsub : ∀ fault, .fault fault ∉ foldersAt d cause (room + 1) (f.path steps) name
        (.folder inner) := fun fault hfault => h fault
      ((mem_foldersAmong_iff_of_plain hplain).mpr ⟨name, inner, hlookup, hfault⟩)
    rw [foldersAt_folder, child_path hsteps hname] at hsub
    by_cases hlong : maxPath < byteSize (f.path (steps ++ [name]))
    · rw [if_pos hlong] at hsub
      exact absurd (List.mem_cons_of_mem _ (List.mem_singleton_self _)) (hsub _)
    rw [if_neg hlong] at hsub
    by_cases hrest : rest = []
    · rw [hrest]
      exact ⟨Nat.le_add_left 1 room, Nat.le_of_not_lt hlong⟩
    · obtain ⟨hroom, hshort⟩ := ih (hplain.of_lookup hlookup)
        (Path.isStep_append_singleton hsteps hname)
        (fun fault hfault => hsub fault (List.mem_cons_of_mem _ hfault)) rest below hrest hat
      rw [List.append_assoc, List.singleton_append] at hshort
      exact ⟨Nat.succ_le_succ hroom, hshort⟩

end Folders

/-! ### Keeping files -/

private theorem exists_filesAmong_iff {finds : List Find} :
    (∃ found, d.filesAmong finds = .ok found) ↔
    ∀ x ∈ finds, ∃ q found, x = .path q ∧ d.probe q = .ok found := by
  induction finds with
  | nil => exact iff_of_true ⟨[], rfl⟩ (List.forall_mem_nil _)
  | cons find rest ih =>
    rw [List.forall_mem_cons, ← ih]
    cases find with
    | fault fault => exact iff_of_false nofun nofun
    | path q =>
      simp only [filesAmong_path_eq_ok_iff]
      constructor
      · rintro ⟨_, item, hitem, others, hothers, -⟩
        exact ⟨⟨q, item, rfl, hitem⟩, others, hothers⟩
      · rintro ⟨⟨_, item, heq, hitem⟩, others, hothers⟩
        exact ⟨_, item, Find.path.inj heq ▸ hitem, others, hothers, rfl⟩

/-- What is kept of what was found are the files. -/
private theorem mem_filesAmong_iff {finds : List Find} {found : List String}
    (h : d.filesAmong finds = .ok found) {q : String} :
    q ∈ found ↔ .path q ∈ finds ∧ d.isFile q = true := by
  refine ⟨mem_of_mem_filesAmong h, ?_⟩
  rintro ⟨hq, hfile⟩
  induction finds generalizing found with
  | nil => cases hq
  | cons find rest ih =>
    cases find with
    | fault fault => cases h
    | path p =>
      obtain ⟨item, hitem, others, hothers, rfl⟩ := filesAmong_path_eq_ok_iff.mp h
      rcases List.mem_cons.mp hq with heq | hq
      · obtain rfl := Find.path.inj heq
        obtain ⟨contents, hfind⟩ := exists_find_of_isFile hfile
        rw [probe, hfind] at hitem
        obtain rfl := Except.ok.inj hitem
        exact List.mem_cons_self
      · have hmem := ih hothers hq
        split
        · exact List.mem_cons_of_mem _ hmem
        · exact hmem

/-! ### Everything below a folder -/

/-- The pattern of everything at or below a folder. -/
def everything : Pattern :=
  ⟨[.deep, .wild [.anyRun]], false⟩

theorem read_everything {limit : Nat} (h : 2 ≤ limit) :
    Pattern.read limit "**/*" = .ok everything := by
  have hparts : Pattern.parts "**/*" = ["**", "*"] := by decide
  have hselectors : Pattern.selectorsOf limit ["**", "*"] = .ok [.deep, .wild [.anyRun]] :=
    Pattern.selectorsOf_eq_ok_iff.mpr ⟨h, by rfl⟩
  rw [Pattern.read_eq, if_neg (by decide), if_neg (by decide), hparts, hselectors]
  rfl

private theorem accepts_anyRun (as : List Symbol) : Wildcard.accepts [.anyRun] as = true := by
  induction as with
  | nil => rfl
  | cons a as ih => rw [Wildcard.accepts_anyRun_cons, ih, Bool.or_true]

/-- What is selected are the entries of all folders that are come upon. -/
private theorem mem_select_everything_iff {p : String} {x : Find} :
    x ∈ d.select everything.foldersOnly everything.selectors p ↔
      ∃ y ∈ d.foldersFrom .tooDeep p, x ∈ y.andThen (d.accepted [.anyRun] false) := by
  have hlast : d.select false [.wild [.anyRun]] = d.accepted [.anyRun] false := by
    have hpath : Find.andThen (d.select false []) = fun x => [x] := by
      funext x
      cases x <;> rfl
    funext q
    rw [select_wild, hpath, List.flatMap_singleton']
    rfl
  rw [everything, select_deep, List.mem_eraseDups, List.mem_flatMap, hlast]
  rfl

private theorem mem_accepted_anyRun_iff {p : String} (h : d.find p = .ok (.folder entries))
    {x : Find} :
    x ∈ d.accepted [.anyRun] false p ↔
      ∃ name item, (name, item) ∈ entries ∧ x = .path (child p name) := by
  have hone (entry : String × Item) :
      d.acceptedEntry [.anyRun] false p entry = [.path (child p entry.1)] := by
    obtain ⟨name, item⟩ := entry
    simp [acceptedEntry, accepts_anyRun]
  have hentries : d.entriesAt p = .ok entries := by rw [entriesAt, h]
  simp [accepted, hentries, hone]

/-- All that stands below a folder can be gone through: no folder lies more than `room` deep, and no
path is too long. -/
structure Fits (room : Nat) (start : String) (entries : List (String × Item)) : Prop where
  room : ∀ way inner, (Item.folder entries).at? way = some (.folder inner) → way.length ≤ room
  short : ∀ way item, (Item.folder entries).at? way = some item →
    byteSize (Path.below start way) ≤ maxPath

section Tree

variable (hroot : d.find (f.path []) = .ok (.folder entries))
  (hplain : (Item.folder entries).Plain)

include hplain

omit hroot in
theorem below_path_of_at? (h : (Item.folder entries).at? way = some item) :
    Path.below (f.path []) way = f.path way := by
  rw [Sources.below_path (List.forall_mem_nil _) fun n hn =>
    (Item.isName_of_at? hplain.wellNamed h n hn).toIsStep, List.nil_append]

omit hroot in
theorem Fits.folders {room : Nat} (h : Fits room (f.path []) entries) :
    FoldersFit f room [] entries := by
  intro way inner _ hat
  have hshort := h.short way _ hat
  rw [below_path_of_at? hplain hat] at hshort
  exact ⟨h.room way inner hat, hshort⟩

include hroot

private theorem exists_probe_path_iff (h : (Item.folder entries).at? way = some item) :
    (∃ found, d.probe (f.path way) = .ok found) ↔ byteSize (f.path way) ≤ maxPath := by
  have hfind := find_path_of_at? hroot hplain h
  rw [probe]
  split_ifs at hfind with hlong
  · rw [hfind]
    refine iff_of_false ?_ (Nat.not_le.mpr hlong)
    rintro ⟨_, hfound⟩
    cases hfound
  · rw [hfind]
    exact iff_of_true ⟨_, rfl⟩ (Nat.le_of_not_lt hlong)

private theorem mem_foldersFrom_iff (hfit : FoldersFit f d.limits.search [] entries) {cause : Cause}
    {x : Find} :
    x ∈ d.foldersFrom cause (f.path []) ↔ ∃ way inner,
      (Item.folder entries).at? way = some (.folder inner) ∧ x = .path (f.path way) := by
  have hentries : d.entriesAt (f.path []) = .ok entries := by rw [entriesAt, hroot]
  rw [foldersFrom, hentries, List.mem_cons,
    hfit.mem_foldersAmong_iff hplain (List.forall_mem_nil _)]
  constructor
  · rintro (rfl | ⟨way, inner, -, hat, rfl⟩)
    · exact ⟨[], entries, by rw [Item.at?], rfl⟩
    · exact ⟨way, inner, hat, rfl⟩
  · rintro ⟨way, inner, hat, rfl⟩
    by_cases hne : way = []
    · rw [hne]
      exact .inl rfl
    · exact .inr ⟨way, inner, hne, hat, rfl⟩

/-- **What is selected** where the folders fit: all that stands below the folder. -/
theorem mem_select_iff_of_foldersFit (hfit : FoldersFit f d.limits.search [] entries) {x : Find} :
    x ∈ d.select everything.foldersOnly everything.selectors (f.path []) ↔ ∃ way item,
      way ≠ [] ∧ (Item.folder entries).at? way = some item ∧ x = .path (f.path way) := by
  have hfolder {way : List String} {inner : List (String × Item)}
      (hat : (Item.folder entries).at? way = some (.folder inner)) {x : Find} :
      x ∈ d.accepted [.anyRun] false (f.path way) ↔
        ∃ name item, inner.lookup name = some item ∧ x = .path (f.path (way ++ [name])) := by
    have hshort : byteSize (f.path way) ≤ maxPath := by
      by_cases hne : way = []
      · rw [hne]
        exact byteSize_le_maxPath (refusal?_eq_none_of_find hroot)
      · exact (hfit way inner hne hat).2
    have hfind := find_path_of_at? hroot hplain hat
    rw [if_neg (Nat.not_lt.mpr hshort)] at hfind
    have hinner : (Item.folder inner).Plain := hplain.of_at? hat
    have hsteps : ∀ s ∈ way, IsStep s := fun s hs =>
      (Item.isName_of_at? hplain.wellNamed hat s hs).toIsStep
    rw [mem_accepted_anyRun_iff hfind]
    refine exists_congr fun name => exists_congr fun item => ?_
    rw [← hinner.lookup_iff]
    refine and_congr_right fun hlookup => ?_
    rw [child_path hsteps (hinner.isName hlookup).toIsStep]
  rw [mem_select_everything_iff]
  constructor
  · rintro ⟨y, hy, hx⟩
    obtain ⟨way, inner, hat, rfl⟩ := (mem_foldersFrom_iff hroot hplain hfit).mp hy
    obtain ⟨name, item, hlookup, rfl⟩ := (hfolder hat).mp hx
    refine ⟨way ++ [name], item, by simp, ?_, rfl⟩
    rw [Item.at?_append, hat, Option.bind_some, Sources.at?_cons_of_lookup hlookup, Item.at?]
  · rintro ⟨way, item, hne, hat, rfl⟩
    obtain ⟨above, name, rfl⟩ := List.eq_nil_or_concat' way |>.resolve_left hne
    obtain ⟨inner, habove, hlookup⟩ := Item.exists_folder_of_at?_append hat
    exact ⟨_, (mem_foldersFrom_iff hroot hplain hfit).mpr ⟨above, inner, habove, rfl⟩,
      (hfolder habove).mpr ⟨name, item, hlookup, rfl⟩⟩

omit hplain in
private theorem glob_everything_eq : d.glob (f.path []) everything =
    d.filesAmong (d.select everything.foldersOnly everything.selectors (f.path [])) := by
  have hprobe : d.probe (f.path []) = .ok (some (.folder entries)) := by rw [probe, hroot]
  rw [glob, Folder.tidy_path (List.forall_mem_nil _), hprobe]
  rfl

/-- **A search for everything** returns exactly where all can be gone through. -/
theorem exists_glob_everything_iff :
    (∃ found, d.glob (f.path []) everything = .ok found) ↔
      Fits d.limits.search (f.path []) entries := by
  rw [glob_everything_eq hroot, exists_filesAmong_iff]
  constructor
  · intro h
    have hnone : ∀ fault, .fault fault ∉ foldersAmong d .tooDeep d.limits.search (f.path [])
        entries := by
      intro fault hfault
      have hentries : d.entriesAt (f.path []) = .ok entries := by rw [entriesAt, hroot]
      have hfrom : .fault fault ∈ d.foldersFrom .tooDeep (f.path []) := by
        rw [foldersFrom, hentries]
        exact List.mem_cons_of_mem _ hfault
      obtain ⟨q, _, heq, -⟩ := h (.fault fault)
        (mem_select_everything_iff.mpr ⟨.fault fault, hfrom, List.mem_singleton_self _⟩)
      cases heq
    have hfit := foldersFit_of_no_fault hplain (List.forall_mem_nil _) hnone
    refine ⟨fun way inner hat => ?_, fun way item hat => ?_⟩
    · by_cases hne : way = []
      · rw [hne]
        exact Nat.zero_le _
      · exact (hfit way inner hne hat).1
    · rw [below_path_of_at? hplain hat]
      by_cases hne : way = []
      · rw [hne]
        exact byteSize_le_maxPath (refusal?_eq_none_of_find hroot)
      · obtain ⟨q, found, heq, hfound⟩ := h _ ((mem_select_iff_of_foldersFit hroot hplain hfit).mpr
          ⟨way, item, hne, hat, rfl⟩)
        obtain rfl := Find.path.inj heq
        exact (exists_probe_path_iff hroot hplain hat).mp ⟨found, hfound⟩
  · intro h x hx
    obtain ⟨way, item, -, hat, rfl⟩ :=
      (mem_select_iff_of_foldersFit hroot hplain (h.folders hplain)).mp hx
    have hshort := h.short way item hat
    rw [below_path_of_at? hplain hat] at hshort
    obtain ⟨found, hfound⟩ := (exists_probe_path_iff hroot hplain hat).mpr hshort
    exact ⟨_, found, rfl, hfound⟩

/-- **What a search for everything finds**: all files. -/
theorem mem_glob_everything_iff {found : List String}
    (h : d.glob (f.path []) everything = .ok found) {s : String} :
    s ∈ found ↔ ∃ way contents, (Item.folder entries).at? way = some (.file contents) ∧
      s = Path.below (f.path []) way := by
  have hfits := (exists_glob_everything_iff hroot hplain).mp ⟨found, h⟩
  rw [glob_everything_eq hroot] at h
  rw [mem_filesAmong_iff h, mem_select_iff_of_foldersFit hroot hplain (hfits.folders hplain)]
  have hfind {way : List String} {item : Item}
      (hat : (Item.folder entries).at? way = some item) : d.find (f.path way) = .ok item := by
    have hshort := hfits.short way item hat
    rw [below_path_of_at? hplain hat] at hshort
    rw [find_path_of_at? hroot hplain hat, if_neg (Nat.not_lt.mpr hshort)]
  constructor
  · rintro ⟨⟨way, item, -, hat, heq⟩, hfile⟩
    obtain rfl := Find.path.inj heq
    obtain ⟨contents, hcontents⟩ := exists_find_of_isFile hfile
    obtain rfl := Except.ok.inj ((hfind hat).symm.trans hcontents)
    exact ⟨way, contents, hat, (below_path_of_at? hplain hat).symm⟩
  · rintro ⟨way, contents, hat, rfl⟩
    rw [below_path_of_at? hplain hat]
    refine ⟨⟨way, _, ?_, hat, rfl⟩, by rw [isFile, hfind hat]; rfl⟩
    rintro rfl
    cases hat

end Tree

end Disk

end ApiOutline
