import ApiOutline.Proofs.Disk.Emptying
import ApiOutline.Proofs.Project.Answers
import ApiOutline.Proofs.Text.Symbols

/-!
# What the lists of a configuration enumerate

The sources that the lists of a configuration name are a set, given in order: what the entries of
`files` name, as far as files stand there, and what the entries of `include` find, as far as no
entry of `exclude` covers it (`enumerates_iff`). Whether they can be enumerated at all is a matter
of the entries of `include` alone, each of which has to be searched for.

So the order and the number of entries do not count, lists in a row stand for the union of what each
of them stands for, and more entries of `exclude` leave less of what `include` contributes and
nothing else out (`enumeration_laws`).
-/

namespace ApiOutline

private theorem Sources.nodup_eraseDups : ∀ texts : List String, texts.eraseDups.Nodup
  | [] => List.nodup_nil
  | text :: rest => by
    rw [List.eraseDups_cons, List.nodup_cons]
    refine ⟨fun h => ?_, nodup_eraseDups _⟩
    -- the text itself is struck out of the rest first
    have htext := (List.mem_filter.mp (List.mem_eraseDups.mp h)).2
    simp at htext
termination_by texts => texts.length
decreasing_by exact Nat.lt_succ_of_le (List.length_filter_le _ _)

namespace Project

variable {p : Project} {d : Disk}

/-! ### The sources of a project -/

/-- What a walk below the root finds that leaves out the output folders. -/
def walked (p : Project) (d : Disk) : Except Failure (List String) := do
  let out ← (p.outDir d {}).2.result
  let declarations ← (p.declarationDir d {}).2.result
  (Sources.discover d p.root (out.toList ++ declarations.toList)).result

/-- The sources to which a configuration leads. -/
def sourcesBy (p : Project) (d : Disk) (config : Json.Fields) : Except Failure (List String) := do
  match ← (p.configuredSources d config).result with
  | some paths => return paths
  | none => p.walked d

/-- The output folders are asked for only where the configuration has neither list. -/
private theorem yields_enumeration (p : Project) (d : Disk) : Yields p d (p.sources d)
    ((Config.loadChain d p.compilerPath p.strict).result >>= p.sourcesBy d) := by
  have hout : Yields p d (p.outDir d) (p.outDir d {}).2.result :=
    .of_transparent ((likeness_transparent p d).ask_optionFolder "outDir") rfl
  have hdeclarations : Yields p d (p.declarationDir d) (p.declarationDir d {}).2.result :=
    .of_transparent ((likeness_transparent p d).ask_optionFolder "declarationDir") rfl
  -- the note about what was found does not change it
  have hnote (paths : List String) (text : String) :
      Yields p d (do .lift (.log .info .project text); return paths) (.ok paths) :=
    .bind_ok (.lift _) (.pure paths)
  have hload : Yields p d (p.loadSources d)
      ((Config.loadChain d p.compilerPath p.strict).result >>= p.sourcesBy d) := by
    rw [loadSources]
    refine (yields_compiler p d).bind fun config _ => (Yields.lift _).bind fun configured _ => ?_
    cases configured with
    | some paths => exact (Yields.pure paths).bind_ok (hnote paths _)
    | none =>
      refine hout.bind fun out _ => hdeclarations.bind fun declarations _ => ?_
      exact .of_eq ((Yields.lift _).bind fun paths _ => hnote paths _) (bind_pure _)
  refine .of_transparent (likeness_transparent p d).ask_sources ?_
  rw [sources, Query.snd_cached rfl]
  exact hload.result_eq

theorem result_sources_of_config {config : Json.Fields}
    (h : (Config.loadChain d p.compilerPath p.strict).result = .ok config) :
    (p.sources d {}).2.result = p.sourcesBy d config := by
  rw [(yields_enumeration p d).result_eq, h]
  rfl

/-! ### What the entries of the lists stand for -/

/-- A configuration of three lists. -/
def lists (files patterns exclude : List Json) : Json.Fields :=
  [("files", .arr files), ("include", .arr patterns), ("exclude", .arr exclude)]

/-- A list of `files`, one of `include` and one of `exclude` enumerate some sources. -/
def Enumerates (p : Project) (d : Disk) (files patterns exclude : List Json)
    (paths : List String) : Prop :=
  (p.configuredSources d (lists files patterns exclude)).result = .ok (some paths)

/-- The entries of a setting that is a list; there are none if it is not. -/
def entriesOf (config : Json.Fields) (name : String) : List Json :=
  (listSetting config name).getD []

theorem has_list_of_include {config : Json.Fields} {patterns : List Json}
    (h : listSetting config "include" = some patterns) :
    ¬(listSetting config "files" = none ∧ listSetting config "include" = none) := by
  rw [h]
  exact fun hnone => Option.some_ne_none _ hnone.2

/-- A configuration with a list counts as the one of its three lists. -/
private theorem configuredSources_eq_lists {config : Json.Fields}
    (h : ¬(listSetting config "files" = none ∧ listSetting config "include" = none)) :
    p.configuredSources d config = p.configuredSources d
      (lists (entriesOf config "files") (entriesOf config "include")
        (entriesOf config "exclude")) := by
  have hlists (files patterns exclude : List Json) :
      listSetting (lists files patterns exclude) "files" = some files ∧
        listSetting (lists files patterns exclude) "include" = some patterns ∧
          listSetting (lists files patterns exclude) "exclude" = some exclude :=
    ⟨rfl, rfl, rfl⟩
  obtain ⟨hfiles, hinclude, hexclude⟩ := hlists (entriesOf config "files")
    (entriesOf config "include") (entriesOf config "exclude")
  rw [configuredSources, configuredSources, hfiles, hinclude, hexclude]
  split
  · next hfiles hinclude => exact absurd ⟨hfiles, hinclude⟩ h
  · rfl

/-- A path is named by an entry of `files`: it is the normal path of the entry, and a file stands
there. -/
def Named (p : Project) (d : Disk) (files : List Json) (s : String) : Prop :=
  ∃ entry ∈ files, s = Path.normalize (Path.join p.root entry.text) ∧ d.isFile s = true

/-- A search for what an entry of `include` asks for comes upon a path. -/
def ComesUpon (p : Project) (d : Disk) (entry : Json) (s : String) : Prop :=
  ∃ pattern,
    Pattern.read d.limits.segments (Sources.expandInclude d p.root entry.text) = .ok pattern ∧
    ∃ found, d.glob p.root pattern = .ok found ∧ s ∈ found

/-- Entries of `include` contribute a path: a search comes upon it, it goes through no folder
without sources, and no entry of `exclude` covers it. -/
def Contributed (p : Project) (d : Disk) (patterns exclude : List Json) (s : String) : Prop :=
  (∃ entry ∈ patterns, p.ComesUpon d entry s) ∧ ∃ way, d.relative s p.root = .ok way ∧
    Sources.throughSkipped way = false ∧ ∀ entry ∈ exclude, Sources.covers entry.text way = false

private theorem mem_fileEntry_iff {entry : Json} {found : List String}
    (h : (p.fileEntry d entry).result = .ok found) {s : String} : s ∈ found ↔
      s = Path.normalize (Path.join p.root entry.text) ∧ d.isFile s = true := by
  rw [fileEntry] at h
  split at h
  · next hfile =>
    obtain rfl := Except.ok.inj h
    rw [List.mem_singleton]
    exact ⟨fun heq => ⟨heq, heq ▸ hfile⟩, And.left⟩
  · next hfile =>
    obtain rfl := Except.ok.inj h
    refine iff_of_false List.not_mem_nil ?_
    rintro ⟨rfl, h⟩
    exact hfile h

private theorem keeps_eq_true_iff {exclude : List Json} {s : String} :
    p.keeps d (exclude.map Json.text) s = .ok true ↔ ∃ way, d.relative s p.root = .ok way ∧
      Sources.throughSkipped way = false ∧
        ∀ entry ∈ exclude, Sources.covers entry.text way = false := by
  rw [keeps, Except.map_eq_ok_iff]
  refine exists_congr fun way => and_congr_right fun _ => ?_
  simp [Sources.coveredByAny, and_comm]

theorem mem_includeEntry_iff {exclude : List Json} {entry : Json} {found : List String}
    (h : (p.includeEntry d (exclude.map Json.text) entry).result = .ok found) {s : String} :
    s ∈ found ↔ p.Contributed d [entry] exclude s := by
  obtain ⟨pattern, hpattern, all, hall, hkept⟩ := includeEntry_eq_ok_iff.mp h
  have hcomes : p.ComesUpon d entry s ↔ s ∈ all := by
    constructor
    · rintro ⟨pattern', hpattern', found', hfound', hs⟩
      obtain rfl := Except.ok.inj (hpattern'.symm.trans hpattern)
      obtain rfl := Except.ok.inj (hfound'.symm.trans hall)
      exact hs
    · exact fun hs => ⟨pattern, hpattern, all, hall, hs⟩
  rw [mem_kept_iff hkept, keeps_eq_true_iff, Contributed, ← hcomes]
  simp

private theorem enumerates_iff_exists {files patterns exclude : List Json} {paths : List String} :
    p.Enumerates d files patterns exclude paths ↔
      ∃ named found, (gather (p.fileEntry d) files).result = .ok named ∧
        (gather (p.includeEntry d (exclude.map Json.text)) patterns).result = .ok found ∧
          Sources.sorted ((named ++ found).eraseDups.filter Sources.isSource) = paths := by
  constructor
  · intro h
    obtain ⟨named, hnamed, h⟩ := Outcome.result_andThen_eq_ok_iff.mp h
    obtain ⟨found, hfound, h⟩ := Outcome.result_andThen_eq_ok_iff.mp h
    exact ⟨named, found, hnamed, hfound, Option.some.inj (Except.ok.inj h)⟩
  · rintro ⟨named, found, hnamed, hfound, rfl⟩
    refine Outcome.result_andThen_eq_ok_iff.mpr ⟨named, hnamed, ?_⟩
    exact Outcome.result_andThen_eq_ok_iff.mpr ⟨found, hfound, rfl⟩

theorem exists_enumerates_iff {files patterns exclude : List Json} :
    (∃ paths, p.Enumerates d files patterns exclude paths) ↔
      ∀ entry ∈ patterns, p.Searches d entry := by
  simp only [enumerates_iff_exists]
  constructor
  · rintro ⟨_, _, found, -, hfound, -⟩ entry hentry
    exact exists_includeEntry_iff.mp (exists_gather_iff.mp ⟨found, hfound⟩ entry hentry)
  · intro h
    obtain ⟨named, hnamed⟩ := exists_gather_iff.mpr fun entry (_ : entry ∈ files) =>
      exists_fileEntry p d entry
    obtain ⟨found, hfound⟩ : ∃ found,
        (gather (p.includeEntry d (exclude.map Json.text)) patterns).result = .ok found :=
      exists_gather_iff.mpr fun entry hentry => exists_includeEntry_iff.mpr (h entry hentry)
    exact ⟨_, named, found, hnamed, hfound, rfl⟩

private theorem contributed_iff_exists {patterns exclude : List Json} {s : String} :
    p.Contributed d patterns exclude s ↔
      ∃ entry ∈ patterns, p.Contributed d [entry] exclude s := by
  constructor
  · rintro ⟨⟨entry, hentry, hcomes⟩, hkept⟩
    exact ⟨entry, hentry, ⟨entry, List.mem_singleton_self entry, hcomes⟩, hkept⟩
  · rintro ⟨entry, hentry, ⟨_, hself, hcomes⟩, hkept⟩
    obtain rfl := List.mem_singleton.mp hself
    exact ⟨⟨_, hentry, hcomes⟩, hkept⟩

theorem Enumerates.mem_iff {files patterns exclude : List Json} {paths : List String}
    (h : p.Enumerates d files patterns exclude paths) {s : String} :
    s ∈ paths ↔ Sources.isSource s = true ∧
      (p.Named d files s ∨ p.Contributed d patterns exclude s) := by
  have hsearches := exists_enumerates_iff.mp ⟨paths, h⟩
  refine (mem_configuredSources h).trans (and_congr_right fun _ => or_congr ?_ ?_)
  · refine exists_congr fun entry => and_congr_right fun _ => ?_
    obtain ⟨found, hfound⟩ := exists_fileEntry p d entry
    simp [hfound, mem_fileEntry_iff hfound]
  · rw [contributed_iff_exists]
    refine exists_congr fun entry => and_congr_right fun hentry => ?_
    obtain ⟨found, hfound⟩ : ∃ found,
        (p.includeEntry d (exclude.map Json.text) entry).result = .ok found :=
      exists_includeEntry_iff.mpr (hsearches entry hentry)
    rw [← mem_includeEntry_iff hfound]
    exact ⟨fun ⟨_, h, hs⟩ => Except.ok.inj (hfound.symm.trans h) ▸ hs, fun hs => ⟨_, hfound, hs⟩⟩

theorem Enumerates.pairwise_before {files patterns exclude : List Json} {paths : List String}
    (h : p.Enumerates d files patterns exclude paths) : paths.Pairwise Text.Before := by
  obtain ⟨named, found, -, -, rfl⟩ := enumerates_iff_exists.mp h
  exact Text.pairwise_before_mergeSort ((Sources.nodup_eraseDups _).filter _)

/-- **What lists enumerate**, and when: exactly the sources that their entries name and contribute,
sorted, if every entry of `include` can be searched for. -/
theorem enumerates_iff {files patterns exclude : List Json} {paths : List String} :
    p.Enumerates d files patterns exclude paths ↔
      (∀ entry ∈ patterns, p.Searches d entry) ∧ paths.Pairwise Text.Before ∧
        ∀ s, s ∈ paths ↔ Sources.isSource s = true ∧
          (p.Named d files s ∨ p.Contributed d patterns exclude s) := by
  constructor
  · exact fun h => ⟨exists_enumerates_iff.mp ⟨paths, h⟩, h.pairwise_before, fun _ => h.mem_iff⟩
  · rintro ⟨hsearches, hsorted, hmem⟩
    obtain ⟨paths', h⟩ : ∃ paths', p.Enumerates d files patterns exclude paths' :=
      exists_enumerates_iff.mpr hsearches
    -- a sorted list is determined by its members
    have heq : paths' = paths := h.pairwise_before.eq_of_mem_iff hsorted fun s =>
      h.mem_iff.trans (hmem s).symm
    exact heq ▸ h

/-! ### Disks that differ in what files hold -/

private theorem fileEntry_emptied (p : Project) (d : Disk) :
    p.fileEntry d.emptied = p.fileEntry d := by
  funext entry
  rw [fileEntry, fileEntry, Disk.isFile_emptied]

private theorem kept_emptied (p : Project) (d : Disk) (exclude : List String) :
    p.kept d.emptied exclude = p.kept d exclude := by
  funext paths
  induction paths with
  | nil => rfl
  | cons path rest ih =>
    rw [kept, kept, ih]
    rfl

private theorem includeEntry_emptied (p : Project) (d : Disk) :
    p.includeEntry d.emptied = p.includeEntry d := by
  funext exclude entry
  have hexpand : Sources.expandInclude d.emptied p.root entry.text =
      Sources.expandInclude d p.root entry.text := by
    rw [Sources.expandInclude, Sources.expandInclude, Disk.isFolder_emptied]
  rw [includeEntry, includeEntry, hexpand]
  simp only [Disk.limits_emptied, Disk.glob_emptied, kept_emptied]

/-- What the lists of a configuration name does not hang on what the files hold. -/
private theorem configuredSources_emptied (p : Project) (d : Disk) :
    p.configuredSources d.emptied = p.configuredSources d := by
  funext config
  rw [configuredSources, configuredSources, fileEntry_emptied, includeEntry_emptied]

/-- The sources of a project whose configuration has a list are what its lists enumerate, on any
disk that differs in what its files hold only. -/
theorem sources_eq_ok_iff_enumerates {d' : Disk} (hd : d'.emptied = d.emptied)
    {config : Json.Fields}
    (hconfig : (Config.loadChain d' p.compilerPath p.strict).result = .ok config)
    (hlist : ¬(listSetting config "files" = none ∧ listSetting config "include" = none))
    {paths : List String} : (p.sources d' {}).2.result = .ok paths ↔
      p.Enumerates d (entriesOf config "files") (entriesOf config "include")
        (entriesOf config "exclude") paths := by
  have hsame : p.configuredSources d' = p.configuredSources d := by
    rw [← configuredSources_emptied, hd, configuredSources_emptied]
  rw [result_sources_of_config hconfig, sourcesBy, hsame, configuredSources_eq_lists hlist,
    Enumerates, Except.bind_eq_ok_iff]
  constructor
  · rintro ⟨configured, hconfigured, h⟩
    cases configured with
    | none =>
      -- lists that are there lead to some sources
      obtain ⟨_, -, h⟩ := Outcome.result_andThen_eq_ok_iff.mp hconfigured
      obtain ⟨_, -, h⟩ := Outcome.result_andThen_eq_ok_iff.mp h
      cases h
    | some named => exact Except.ok.inj h ▸ hconfigured
  · exact fun h => ⟨some paths, h, rfl⟩

/-! ### Laws of lists -/

section Laws

variable {files files' patterns patterns' exclude exclude' : List Json} {s : String}

private theorem named_append_iff :
    p.Named d (files ++ files') s ↔ p.Named d files s ∨ p.Named d files' s := by
  simp only [Named, List.mem_append, or_and_right, exists_or]

private theorem contributed_append_iff : p.Contributed d (patterns ++ patterns') exclude s ↔
    p.Contributed d patterns exclude s ∨ p.Contributed d patterns' exclude s := by
  simp only [Contributed, List.mem_append, or_and_right, exists_or]

/-- The relative way to a path is one, so two lists of `exclude` speak of the same. -/
private theorem contributed_append_exclude_iff : p.Contributed d patterns (exclude ++ exclude') s ↔
    p.Contributed d patterns exclude s ∧ p.Contributed d patterns exclude' s := by
  constructor
  · rintro ⟨hcomes, way, hway, hskipped, hcovers⟩
    exact ⟨⟨hcomes, way, hway, hskipped, fun entry h => hcovers entry (List.mem_append_left _ h)⟩,
      hcomes, way, hway, hskipped, fun entry h => hcovers entry (List.mem_append_right _ h)⟩
  · rintro ⟨⟨hcomes, way, hway, hskipped, hcovers⟩, -, way', hway', -, hcovers'⟩
    obtain rfl := Except.ok.inj (hway.symm.trans hway')
    exact ⟨hcomes, way, hway, hskipped, fun entry h =>
      (List.mem_append.mp h).elim (hcovers entry) (hcovers' entry)⟩

theorem not_named_nil : ¬p.Named d [] s := nofun

private theorem not_contributed_nil : ¬p.Contributed d [] exclude s := nofun

private theorem isFile_of_named (h : p.Named d files s) : d.isFile s = true := by
  obtain ⟨-, -, -, hfile⟩ := h
  exact hfile

private theorem isFile_of_contributed (h : p.Contributed d patterns exclude s) :
    d.isFile s = true := by
  obtain ⟨⟨_, _, _, _, found, hfound, hs⟩, -⟩ := h
  exact Disk.isFile_of_mem_glob hfound hs

namespace Enumerates

variable {paths : List String}

theorem isFile (h : p.Enumerates d files patterns exclude paths) (hs : s ∈ paths) :
    d.isFile s = true :=
  (h.mem_iff.mp hs).2.elim isFile_of_named isFile_of_contributed

/-- Only which entries there are counts, not their order and how often they are repeated. -/
private theorem of_mem_iff (h : p.Enumerates d files patterns exclude paths)
    (hfiles : ∀ entry, entry ∈ files' ↔ entry ∈ files)
    (hpatterns : ∀ entry, entry ∈ patterns' ↔ entry ∈ patterns)
    (hexclude : ∀ entry, entry ∈ exclude' ↔ entry ∈ exclude) :
    p.Enumerates d files' patterns' exclude' paths := by
  rw [enumerates_iff] at h ⊢
  simpa only [Named, Contributed, hfiles, hpatterns, hexclude] using h

/-- The sources that `files` names are the same, whatever `exclude` holds. -/
private theorem of_files (h : p.Enumerates d files [] exclude paths) (exclude' : List Json) :
    p.Enumerates d files [] exclude' paths := by
  rw [enumerates_iff] at h ⊢
  simpa only [not_contributed_nil, or_false] using h

private theorem mem_iff_of_append
    (h : p.Enumerates d (files ++ files') (patterns ++ patterns') exclude paths)
    {left right : List String} (hleft : p.Enumerates d files patterns exclude left)
    (hright : p.Enumerates d files' patterns' exclude right) :
    s ∈ paths ↔ s ∈ left ∨ s ∈ right := by
  rw [h.mem_iff, hleft.mem_iff, hright.mem_iff, named_append_iff, contributed_append_iff,
    ← and_or_left, or_or_or_comm]

private theorem mem_iff_of_append_exclude
    (h : p.Enumerates d [] patterns (exclude ++ exclude') paths)
    {left right : List String} (hleft : p.Enumerates d [] patterns exclude left)
    (hright : p.Enumerates d [] patterns exclude' right) :
    s ∈ paths ↔ s ∈ left ∧ s ∈ right := by
  simp only [h.mem_iff, hleft.mem_iff, hright.mem_iff, not_named_nil, false_or,
    contributed_append_exclude_iff]
  exact and_and_left

/-- The sources are those that `files` names and those that `include` contributes. -/
private theorem mem_iff_of_parts (h : p.Enumerates d files patterns exclude paths)
    {named found : List String} (hnamed : p.Enumerates d files [] exclude named)
    (hfound : p.Enumerates d [] patterns exclude found) : s ∈ paths ↔ s ∈ named ∨ s ∈ found := by
  simp only [h.mem_iff, hnamed.mem_iff, hfound.mem_iff, not_contributed_nil, not_named_nil,
    or_false, false_or, ← and_or_left]

end Enumerates

/-- **The laws of lists.** A project whose configuration has a list has the sources that its lists
enumerate, whatever the files hold. Lists enumerate sources if each entry of `include` can be
searched for, and then in strict order, each a file. Only which entries there are counts; lists in a
row stand for the union; and more entries of `exclude` leave out of what `include` contributes what
one of them covers, and nothing of what `files` names. -/
theorem enumeration_laws (p : Project) (d : Disk) :
    (∀ d' : Disk, d'.emptied = d.emptied → ∀ config,
      (Config.loadChain d' p.compilerPath p.strict).result = .ok config →
      ¬(listSetting config "files" = none ∧ listSetting config "include" = none) →
      ∀ paths, (p.sources d' {}).2.result = .ok paths ↔ p.Enumerates d (entriesOf config "files")
        (entriesOf config "include") (entriesOf config "exclude") paths) ∧
    ∀ files files' patterns patterns' exclude exclude' : List Json,
      ((∃ paths, p.Enumerates d files patterns exclude paths) ↔
        ∀ entry ∈ patterns, p.Searches d entry) ∧
      ∀ paths, p.Enumerates d files patterns exclude paths →
        paths.Pairwise Text.Before ∧
        (∀ s ∈ paths, d.isFile s = true ∧ Sources.isSource s = true) ∧
        ((∀ entry, entry ∈ files' ↔ entry ∈ files) →
          (∀ entry, entry ∈ patterns' ↔ entry ∈ patterns) →
          (∀ entry, entry ∈ exclude' ↔ entry ∈ exclude) →
          p.Enumerates d files' patterns' exclude' paths) ∧
        (∀ others all, p.Enumerates d files' patterns' exclude others →
          p.Enumerates d (files ++ files') (patterns ++ patterns') exclude all →
          ∀ s, s ∈ all ↔ s ∈ paths ∨ s ∈ others) ∧
        ∀ rest named found found' both, p.Enumerates d files patterns (exclude ++ exclude') rest →
          p.Enumerates d files [] exclude named → p.Enumerates d [] patterns exclude found →
          p.Enumerates d [] patterns exclude' found' →
          p.Enumerates d [] patterns (exclude ++ exclude') both →
          p.Enumerates d files [] exclude' named ∧
          (∀ s, s ∈ both ↔ s ∈ found ∧ s ∈ found') ∧
          (∀ s ∈ rest, s ∈ paths) ∧ ∀ s ∈ paths, s ∉ rest → s ∈ found ∧ s ∉ named := by
  refine ⟨fun d' hd config hconfig hlist paths =>
    sources_eq_ok_iff_enumerates hd hconfig hlist, ?_⟩
  intro files files' patterns patterns' exclude exclude'
  refine ⟨exists_enumerates_iff, fun paths h => ⟨h.pairwise_before,
    fun s hs => ⟨h.isFile hs, (h.mem_iff.mp hs).1⟩, h.of_mem_iff,
    fun others all hothers hall s => hall.mem_iff_of_append h hothers, ?_⟩⟩
  intro rest named found found' both hrest hnamed hfound hfound' hboth
  have hinter {s : String} : s ∈ both ↔ s ∈ found ∧ s ∈ found' :=
    hboth.mem_iff_of_append_exclude hfound hfound'
  have hpaths {s : String} : s ∈ paths ↔ s ∈ named ∨ s ∈ found := h.mem_iff_of_parts hnamed hfound
  have hparts {s : String} : s ∈ rest ↔ s ∈ named ∨ s ∈ both :=
    hrest.mem_iff_of_parts (hnamed.of_files _) hboth
  refine ⟨hnamed.of_files exclude', fun s => hinter, fun s hs => ?_, fun s hs hnot => ?_⟩
  · exact hpaths.mpr ((hparts.mp hs).imp_right fun h => (hinter.mp h).1)
  · have hno : s ∉ named := fun hmem => hnot (hparts.mpr (.inl hmem))
    exact ⟨(hpaths.mp hs).resolve_left hno, hno⟩

end Laws

/-! ### Lists that overlap -/

/-- Lists enumerate what can be computed in order. -/
theorem enumerates_of_gather {files patterns exclude : List Json} {paths : List String}
    (hsorted : paths.Pairwise fun s t => Text.precedes s t = true)
    (h : ∃ named, (gather (p.fileEntry d) files).result = .ok named ∧
      ∃ found, (gather (p.includeEntry d (exclude.map Json.text)) patterns).result = .ok found ∧
        (named ++ found).eraseDups.filter Sources.isSource = paths) :
    p.Enumerates d files patterns exclude paths := by
  obtain ⟨named, hnamed, found, hfound, rfl⟩ := h
  exact enumerates_iff_exists.mpr ⟨named, found, hnamed, hfound,
    List.mergeSort_of_pairwise hsorted⟩

/-- A package with the sources `gen/c.ts`, `src/a.ts` and `src/b.ts`, which names the first two and
of the folder `src` takes what is not called `a`. -/
def overlapping : Disk where
  entries := [
    ("gen", .folder [("c.ts", .file ⟨[], none, none⟩)]),
    ("src", .folder [("a.ts", .file ⟨[], none, none⟩), ("b.ts", .file ⟨[], none, none⟩)]),
    ("tsconfig.json", .file ⟨Utf8.encode ("\x7b\"files\":[\"gen/c.ts\",\"src/a.ts\"]," ++
      "\"include\":[\"src\"],\"exclude\":[\"src/a*\"]\x7d"), none, none⟩)]
  cwd := "/"
  limits := .uniform 8

/-- The package at the root of its disk. -/
def listing : Project :=
  ⟨"/", false⟩

/-- One more entry of `exclude` leaves out a source that `include` contributes, and keeps one that
is named. -/
theorem enumeration_laws_overlapping : ∃ config,
    (Config.loadChain overlapping listing.compilerPath listing.strict).result = .ok config ∧
    (listing.sources overlapping {}).2.result = .ok ["/gen/c.ts", "/src/a.ts", "/src/b.ts"] ∧
    listing.Enumerates overlapping [] (entriesOf config "include") [.str "src/b.ts"]
      ["/src/a.ts"] ∧
    ∀ rest, listing.Enumerates overlapping (entriesOf config "files") (entriesOf config "include")
        (entriesOf config "exclude" ++ [.str "src/b.ts"]) rest →
      "/src/a.ts" ∈ rest ∧ "/src/b.ts" ∉ rest := by
  have hloaded : ∃ config,
      (Config.loadChain overlapping listing.compilerPath listing.strict).result = .ok config ∧
      (listSetting config "files").isSome = true ∧
      (∃ named, (gather (listing.fileEntry overlapping) (entriesOf config "files")).result =
        .ok named ∧ named = ["/gen/c.ts", "/src/a.ts"]) ∧
      (∃ found, (gather (listing.includeEntry overlapping
        ((entriesOf config "exclude").map Json.text)) (entriesOf config "include")).result =
        .ok found ∧ found = ["/src/b.ts"]) ∧
      (∃ found, (gather (listing.includeEntry overlapping ["src/b.ts"])
        (entriesOf config "include")).result = .ok found ∧ found = ["/src/a.ts"]) ∧
      ∃ found, (gather (listing.includeEntry overlapping
        ((entriesOf config "exclude").map Json.text ++ ["src/b.ts"]))
        (entriesOf config "include")).result = .ok found ∧ found = [] := by decide +kernel
  obtain ⟨config, hconfig, hlist, hnamed, hfound, hfound', hboth⟩ := hloaded
  have hnamed := Except.eq_ok_of_exists hnamed
  have hfound := Except.eq_ok_of_exists hfound
  have hfound' := Except.eq_ok_of_exists hfound'
  have hboth := Except.eq_ok_of_exists hboth
  -- what the lists enumerate, together and each for itself
  have hpaths : listing.Enumerates overlapping (entriesOf config "files")
      (entriesOf config "include") (entriesOf config "exclude")
      ["/gen/c.ts", "/src/a.ts", "/src/b.ts"] :=
    enumerates_of_gather (by decide +kernel) ⟨_, hnamed, _, hfound, by decide +kernel⟩
  have hnames : listing.Enumerates overlapping (entriesOf config "files") []
      (entriesOf config "exclude") ["/gen/c.ts", "/src/a.ts"] :=
    enumerates_of_gather (by decide +kernel) ⟨_, hnamed, [], rfl, by decide +kernel⟩
  have hfinds : listing.Enumerates overlapping [] (entriesOf config "include")
      (entriesOf config "exclude") ["/src/b.ts"] :=
    enumerates_of_gather (by decide) ⟨[], rfl, _, hfound, by decide +kernel⟩
  have hfinds' : listing.Enumerates overlapping [] (entriesOf config "include")
      [.str "src/b.ts"] ["/src/a.ts"] :=
    enumerates_of_gather (by decide) ⟨[], rfl, _, hfound', by decide +kernel⟩
  have hnone : listing.Enumerates overlapping [] (entriesOf config "include")
      (entriesOf config "exclude" ++ [.str "src/b.ts"]) [] :=
    enumerates_of_gather (by decide) ⟨[], rfl, [], by rw [List.map_append]; exact hboth, rfl⟩
  obtain ⟨hsources, hlaws⟩ := enumeration_laws listing overlapping
  refine ⟨config, hconfig, (hsources overlapping rfl config hconfig ?_ _).mpr hpaths, hfinds',
    fun rest hrest => ?_⟩
  · rintro ⟨hno, -⟩
    rw [hno] at hlist
    cases hlist
  obtain ⟨-, -, -, -, hexclude⟩ := (hlaws (entriesOf config "files") []
    (entriesOf config "include") [] (entriesOf config "exclude") [.str "src/b.ts"]).2 _ hpaths
  obtain ⟨-, -, -, hout⟩ := hexclude rest _ _ _ _ hrest hnames hfinds hfinds' hnone
  constructor
  · by_contra hnot
    exact absurd (hout "/src/a.ts" (by decide) hnot).1 (by decide)
  · -- what is left is what `files` names, since `include` contributes nothing any more
    have hall : listing.Enumerates overlapping (entriesOf config "files" ++ [])
        ([] ++ entriesOf config "include") (entriesOf config "exclude" ++ [.str "src/b.ts"])
        rest := by
      rw [List.append_nil, List.nil_append]
      exact hrest
    obtain ⟨-, -, -, hunion, -⟩ := (hlaws (entriesOf config "files") [] []
      (entriesOf config "include") (entriesOf config "exclude" ++ [.str "src/b.ts"]) []).2 _
        (hnames.of_files _)
    rw [hunion _ rest hnone hall]
    decide

end Project

end ApiOutline
