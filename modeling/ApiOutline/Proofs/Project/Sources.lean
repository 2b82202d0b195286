import ApiOutline.Proofs.Disk.Glob
import ApiOutline.Proofs.Project.Request

/-!
# How the sources of a project are spelled

The paths of sources come from three places: the entries of `files`, which are normalized, a walk
below the root, which adds the names of folders and files to it, and the entries of `include`, which
are searched for as patterns. The first two give normal paths. A pattern keeps its steps up, so an
entry of `include` with a step `..` finds paths that are not normal, and any other entry finds
normal ones. `StaysDown` says that no entry of the first kind finds a source, and it is exactly the
condition under which all sources are normal (`forall_normal_iff_staysDown`).

A configuration gets such entries by itself, or from a base in another folder, whose entries are
rewritten to be seen from the root.
-/

namespace ApiOutline

open ApiOutline.Path (IsStep IsName IsRoot spell)
open Disk (GoesOn)

/-! ### Walking a folder -/

namespace Sources

variable {d : Disk} {root : String} {excluded : List String}

-- a link is not followed by the walk, so the induction over the tree of items is enough

mutual

private theorem goesOn_of_mem_found (hr : IsRoot root) {q : String} :
    ∀ (item : Item) {steps : List String} {name : String},
      (∀ s ∈ steps, IsStep s) → IsName name → item.wellNamed = true →
      q ∈ found d excluded name (Path.join (spell root steps) name) item →
      GoesOn root steps False q
  | .folder entries, steps, name, hsteps, hname, hitem, h => by
    rw [found, Path.join_spell hr hsteps hname.toIsStep] at h
    split at h
    · rw [Item.wellNamed] at hitem
      exact (goesOn_of_mem_foundIn hr entries
        (Path.isStep_append_singleton hsteps hname.toIsStep) hitem h).after_name hname
    · cases h
  | .file _, steps, name, hsteps, hname, _, h => by
    rw [found, Path.join_spell hr hsteps hname.toIsStep] at h
    split at h
    · rw [List.mem_singleton.mp h]
      exact .of_isName hname
    · cases h
  | .link _, steps, name, hsteps, hname, _, h => by
    rw [found, Path.join_spell hr hsteps hname.toIsStep] at h
    split at h
    · rw [List.mem_singleton.mp h]
      exact .of_isName hname
    · cases h

private theorem goesOn_of_mem_foundIn (hr : IsRoot root) {q : String} :
    ∀ (entries : List (String × Item)) {steps : List String},
      (∀ s ∈ steps, IsStep s) → Item.wellNamedIn entries = true →
      q ∈ foundIn d excluded (spell root steps) entries → GoesOn root steps False q
  | [], _, _, _, h => by
    rw [foundIn] at h
    cases h
  | (name, item) :: rest, steps, hsteps, hentries, h => by
    obtain ⟨hname, hitem, hrest⟩ := Item.wellNamedIn_cons_iff.mp hentries
    rw [foundIn] at h
    rcases List.mem_append.mp h with h | h
    · exact goesOn_of_mem_found hr item hsteps hname hitem h
    · exact goesOn_of_mem_foundIn hr rest hsteps hrest h

end

private theorem mem_sorted {texts : List String} {s : String} : s ∈ sorted texts ↔ s ∈ texts :=
  List.mem_mergeSort

/-- A walk returns what it finds, in order, unless it goes too deep. -/
theorem discover_eq_ok_iff {folder : String} {paths : List String} :
    (discover d folder excluded).result = .ok paths ↔
      ∃ entries, d.scan (d.absolute folder) = .ok entries ∧
        depthIn (excluded.map d.absolute) (d.absolute folder) entries ≤ d.limits.walk ∧
        sorted (foundIn d (excluded.map d.absolute) (d.absolute folder) entries) = paths := by
  rw [discover, Outcome.bind_eq, Outcome.result_andThen_eq_ok_iff]
  refine exists_congr fun entries => ?_
  rw [Outcome.result_ofExcept, Except.mapError_eq_ok_iff]
  refine and_congr_right fun _ => ?_
  dsimp only
  split
  · next hdeep =>
    refine iff_of_false ?_ fun h => absurd h.1 (Nat.not_le.mpr hdeep)
    intro h
    cases h
  · next hdeep =>
    rw [and_iff_right (Nat.le_of_not_lt hdeep)]
    exact ⟨Except.ok.inj, congrArg _⟩

/-- Neither slashes at the end nor what is added for a folder count as steps up. -/
private theorem up_mem_names_expandInclude (d : Disk) (root pattern : String) :
    ".." ∈ Path.names (expandInclude d root pattern) ↔ ".." ∈ Path.names pattern := by
  rw [expandInclude, ← Path.names_trimEnd pattern]
  generalize Text.trimEnd pattern '/' = trimmed
  split
  · -- a folder: everything below it is meant
    have hdeep : trimmed ++ "/**/*" = trimmed ++ "/" ++ "**/*" := by
      rw [String.append_assoc]
      rfl
    have hnames : Path.names "**/*" = ["**", "*"] := by decide
    rw [hdeep, Path.names_append_slash, hnames, List.mem_append]
    simp
  · rfl

end Sources

/-! ### The entries of a configuration -/

namespace Project

variable {p : Project} {d : Disk}

/-- A project has been opened on a disk: its root is a normal absolute path. -/
def OpenOn (p : Project) (d : Disk) : Prop :=
  ∃ root strict flag, p = openAt d root strict flag

theorem OpenOn.exists_spell (h : p.OpenOn d) (hcwd : Path.isAbsolute d.cwd = true) :
    ∃ root names, IsRoot root ∧ (∀ n ∈ names, IsName n) ∧ p.root = spell root names := by
  obtain ⟨folder, strict, flag, rfl⟩ := h
  have habs := Path.isAbsolute_join hcwd folder
  rw [openAt, Disk.absolute, Path.absolute]
  exact Path.exists_spell_of_normal (Path.isAbsolute_normalize habs) (Path.normalize_normalize habs)

theorem OpenOn.isAbsolute_root (h : p.OpenOn d) (hcwd : Path.isAbsolute d.cwd = true) :
    Path.isAbsolute p.root = true := by
  obtain ⟨root, names, hr, -, hroot⟩ := h.exists_spell hcwd
  exact hroot ▸ Path.isAbsolute_spell hr names

/-- What the entries of a list contribute is what each of them contributes. -/
theorem mem_gather {f : Json → Outcome Failure (List String)} {entries : List Json}
    {all : List String} (h : (gather f entries).result = .ok all) {s : String} :
    s ∈ all ↔ ∃ entry ∈ entries, ∃ found, (f entry).result = .ok found ∧ s ∈ found := by
  induction entries generalizing all with
  | nil =>
    obtain rfl := Except.ok.inj h
    simp
  | cons entry rest ih =>
    rw [gather, Outcome.bind_eq] at h
    obtain ⟨here, hhere, h⟩ := Outcome.result_andThen_eq_ok_iff.mp h
    rw [Outcome.bind_eq] at h
    obtain ⟨others, hothers, h⟩ := Outcome.result_andThen_eq_ok_iff.mp h
    obtain rfl := Except.ok.inj h
    rw [List.mem_append, ih hothers]
    simp [hhere]

theorem mem_kept_iff {exclude paths found : List String}
    (h : p.kept d exclude paths = .ok found) {s : String} :
    s ∈ found ↔ s ∈ paths ∧ p.keeps d exclude s = .ok true := by
  induction paths generalizing found with
  | nil =>
    obtain rfl := Except.ok.inj h
    simp
  | cons path rest ih =>
    rw [kept] at h
    obtain ⟨keep, hkeep, h⟩ := Except.bind_eq_ok_iff.mp h
    obtain ⟨others, hothers, h⟩ := Except.bind_eq_ok_iff.mp h
    obtain rfl := Except.ok.inj h
    rw [List.mem_cons, or_and_right, ← ih hothers]
    cases keep with
    | true =>
      rw [if_pos rfl, List.mem_cons, and_iff_left_of_imp fun heq => heq ▸ hkeep]
    | false =>
      refine (or_iff_right ?_).symm
      rintro ⟨rfl, hyes⟩
      rw [hkeep] at hyes
      cases hyes

/-- An entry of `files` gives a normal path. -/
private theorem normal_of_mem_fileEntry (hroot : Path.isAbsolute p.root = true) {entry : Json}
    {found : List String} (h : (p.fileEntry d entry).result = .ok found) {s : String}
    (hs : s ∈ found) : Path.isAbsolute s = true ∧ Path.normalize s = s := by
  have habs := Path.isAbsolute_join hroot entry.text
  rw [fileEntry] at h
  split at h
  · obtain rfl := Except.ok.inj h
    rw [List.mem_singleton.mp hs]
    exact ⟨Path.isAbsolute_normalize habs, Path.normalize_normalize habs⟩
  · obtain rfl := Except.ok.inj h
    cases hs

/-- An entry of `include` contributes what is kept of the files that its pattern finds. -/
theorem includeEntry_eq_ok_iff {exclude : List String} {entry : Json} {found : List String} :
    (p.includeEntry d exclude entry).result = .ok found ↔
      ∃ pattern,
        Pattern.read d.limits.segments (Sources.expandInclude d p.root entry.text) = .ok pattern ∧
        ∃ all, d.glob p.root pattern = .ok all ∧ p.kept d exclude all = .ok found := by
  simp only [includeEntry, Outcome.bind_eq, Outcome.result_andThen_eq_ok_iff,
    Outcome.result_ofExcept, Outcome.result_ofPath, Except.mapError_eq_ok_iff]

/-- **An entry of `include`** gives paths that go on from the root, and climb if it does. -/
theorem goesOn_of_mem_includeEntry (hd : d.WellNamed) {root : String} (hr : IsRoot root)
    {names : List String} (hnames : ∀ n ∈ names, IsName n) (hroot : p.root = spell root names)
    {exclude : List String} {entry : Json} {found : List String}
    (h : (p.includeEntry d exclude entry).result = .ok found) {s : String} (hs : s ∈ found) :
    GoesOn root names (".." ∈ Path.names entry.text) s := by
  obtain ⟨pattern, hpattern, all, hall, hkept⟩ := includeEntry_eq_ok_iff.mp h
  rw [hroot] at hall
  rw [← Sources.up_mem_names_expandInclude d p.root]
  exact Disk.goesOn_of_mem_glob hd hr (fun n hn => (hnames n hn).toIsStep) hpattern hall
    ((mem_kept_iff hkept).mp hs).1

/-! ### All sources -/

/-- The patterns of what is left out. -/
def excludes (config : Json.Fields) : List String :=
  ((listSetting config "exclude").getD []).map Json.text

/-- No entry of `include` with a step up finds a source. -/
def StaysDown (p : Project) (d : Disk) (config : Json.Fields) : Prop :=
  ∀ entry ∈ (listSetting config "include").getD [], ".." ∈ Path.names entry.text →
    ∀ found, (p.includeEntry d (excludes config) entry).result = .ok found →
      ∀ s ∈ found, Sources.isSource s = false

/-- The sources that the lists of a configuration name. -/
theorem mem_configuredSources {config : Json.Fields} {paths : List String}
    (h : (p.configuredSources d config).result = .ok (some paths)) {s : String} :
    s ∈ paths ↔ Sources.isSource s = true ∧
      ((∃ entry ∈ (listSetting config "files").getD [], ∃ found,
        (p.fileEntry d entry).result = .ok found ∧ s ∈ found) ∨
      ∃ entry ∈ (listSetting config "include").getD [], ∃ found,
        (p.includeEntry d (excludes config) entry).result = .ok found ∧ s ∈ found) := by
  rw [configuredSources] at h
  split at h
  · cases h
  · obtain ⟨named, hnamed, h⟩ := Outcome.result_andThen_eq_ok_iff.mp h
    obtain ⟨found, hfound, h⟩ := Outcome.result_andThen_eq_ok_iff.mp h
    obtain rfl := Option.some.inj (Except.ok.inj h)
    rw [Sources.mem_sorted, List.mem_filter, List.mem_eraseDups, List.mem_append,
      mem_gather hnamed, mem_gather hfound, and_comm]
    rfl

/-- Only a configuration without the lists names no sources. -/
private theorem listSetting_include_of_none {config : Json.Fields}
    (h : (p.configuredSources d config).result = .ok none) :
    listSetting config "include" = none := by
  rw [configuredSources] at h
  split at h
  · next hinclude => exact hinclude
  · obtain ⟨_, -, h⟩ := Outcome.result_andThen_eq_ok_iff.mp h
    obtain ⟨_, -, h⟩ := Outcome.result_andThen_eq_ok_iff.mp h
    cases h

/-- What a walk finds stands below the entries of the folder where it begins. -/
theorem exists_foundIn_of_discover (hd : d.WellNamed) {folder : String}
    {excluded paths : List String} (h : (Sources.discover d folder excluded).result = .ok paths) :
    ∃ entries, Item.wellNamedIn entries = true ∧ ∀ s ∈ paths,
      s ∈ Sources.foundIn d (excluded.map d.absolute) (d.absolute folder) entries := by
  obtain ⟨entries, hentries, -, rfl⟩ := Sources.discover_eq_ok_iff.mp h
  exact ⟨entries, Disk.wellNamedIn_of_scan hd hentries, fun s hs => Sources.mem_sorted.mp hs⟩

/-- What a walk below the root finds goes on from it without a step up. -/
private theorem goesOn_of_mem_discover (hd : d.WellNamed) {root : String} (hr : IsRoot root)
    {names : List String} (hnames : ∀ n ∈ names, IsName n) (hroot : p.root = spell root names)
    {excluded paths : List String} (h : (Sources.discover d p.root excluded).result = .ok paths)
    {s : String} (hs : s ∈ paths) : GoesOn root names False s := by
  have hstart : d.absolute p.root = spell root names := by
    rw [Disk.absolute, Path.absolute, hroot, Path.join_of_isAbsolute (Path.isAbsolute_spell hr _),
      Path.normalize_spell hr hnames]
  obtain ⟨entries, hnamed, hfound⟩ := exists_foundIn_of_discover hd h
  have hs := hfound s hs
  rw [hstart] at hs
  exact Sources.goesOn_of_mem_foundIn hr entries (fun n hn => (hnames n hn).toIsStep) hnamed hs

/-- The sources are those that the configuration names, or what a walk below the root finds. -/
theorem exists_config_of_sources {paths : List String}
    (h : (p.sources d {}).2.result = .ok paths) :
    ∃ config, (Config.loadChain d p.compilerPath p.strict).result = .ok config ∧
      ((p.configuredSources d config).result = .ok (some paths) ∨
        (p.configuredSources d config).result = .ok none ∧
          ∃ excluded, (Sources.discover d p.root excluded).result = .ok paths) := by
  rw [sources, Query.snd_cached rfl, loadSources] at h
  obtain ⟨config, hconfig, h⟩ := Query.result_bind_eq_ok_iff.mp h
  obtain ⟨configured, hconfigured, h⟩ := Query.result_bind_eq_ok_iff.mp h
  rw [Query.lift_apply] at hconfigured
  rw [compiler, Query.snd_cached rfl, Query.lift_apply] at hconfig
  refine ⟨config, hconfig, ?_⟩
  cases configured with
  | some named =>
    dsimp only at h
    obtain ⟨found, hnamed, h⟩ := Query.result_bind_eq_ok_iff.mp h
    obtain ⟨_, -, h⟩ := Query.result_bind_eq_ok_iff.mp h
    have hfound : named = found := Except.ok.inj hnamed
    have hpaths : found = paths := Except.ok.inj h
    rw [hfound, hpaths] at hconfigured
    exact .inl hconfigured
  | none =>
    dsimp only at h
    obtain ⟨out, -, h⟩ := Query.result_bind_eq_ok_iff.mp h
    obtain ⟨declarations, -, h⟩ := Query.result_bind_eq_ok_iff.mp h
    obtain ⟨found, hfound, h⟩ := Query.result_bind_eq_ok_iff.mp h
    obtain ⟨_, -, h⟩ := Query.result_bind_eq_ok_iff.mp h
    have hpaths : found = paths := Except.ok.inj h
    rw [Query.lift_apply, hpaths] at hfound
    exact .inr ⟨hconfigured, out.toList ++ declarations.toList, hfound⟩

/-- **Sources are normal** exactly when no entry of `include` with a step up finds one. -/
theorem forall_normal_iff_staysDown (hcwd : Path.isAbsolute d.cwd = true) (hd : d.WellNamed)
    (hp : p.OpenOn d) {paths : List String} (h : (p.sources d {}).2.result = .ok paths) :
    ∃ config, (Config.loadChain d p.compilerPath p.strict).result = .ok config ∧
      (∀ s ∈ paths, Path.isAbsolute s = true) ∧
      ((∀ s ∈ paths, Path.normalize s = s) ↔ p.StaysDown d config) := by
  obtain ⟨root, names, hr, hnames, hroot⟩ := hp.exists_spell hcwd
  have habs : Path.isAbsolute p.root = true := hroot ▸ Path.isAbsolute_spell hr names
  obtain ⟨config, hconfig, hnamed | ⟨hnone, excluded, hfound⟩⟩ := exists_config_of_sources h
  · refine ⟨config, hconfig, fun s hs => ?_, fun hnormal => ?_, fun hdown s hs => ?_⟩
    · obtain ⟨-, ⟨_, -, _, hfile, hs⟩ | ⟨_, -, _, hinclude, hs⟩⟩ :=
        (mem_configuredSources hnamed).mp hs
      · exact (normal_of_mem_fileEntry habs hfile hs).1
      · exact (goesOn_of_mem_includeEntry hd hr hnames hroot hinclude hs).isAbsolute hr
    · -- an entry with a step up finds nothing normal, so it finds no source
      intro entry hentry hup found hinclude s hs
      rw [← Bool.not_eq_true]
      intro hsource
      have hmem := (mem_configuredSources hnamed).mpr
        ⟨hsource, .inr ⟨entry, hentry, found, hinclude, hs⟩⟩
      have hgoes := goesOn_of_mem_includeEntry hd hr hnames hroot hinclude hs
      exact (hgoes.normalize_eq_self_iff hr hnames).mp (hnormal s hmem) hup
    · obtain ⟨hsource, ⟨_, -, _, hfile, hs⟩ | ⟨entry, hentry, found, hinclude, hs⟩⟩ :=
        (mem_configuredSources hnamed).mp hs
      · exact (normal_of_mem_fileEntry habs hfile hs).2
      · have hgoes := goesOn_of_mem_includeEntry hd hr hnames hroot hinclude hs
        refine (hgoes.normalize_eq_self_iff hr hnames).mpr fun hup => ?_
        have hno := hdown entry hentry hup found hinclude s hs
        rw [hsource] at hno
        cases hno
  · -- without lists the sources are found by a walk, which never goes up
    have hgoes (s : String) (hs : s ∈ paths) := goesOn_of_mem_discover hd hr hnames hroot hfound hs
    refine ⟨config, hconfig, fun s hs => (hgoes s hs).isAbsolute hr, fun _ => ?_, fun _ s hs => ?_⟩
    · intro entry hentry
      rw [listSetting_include_of_none hnone] at hentry
      cases hentry
    · exact ((hgoes s hs).normalize_eq_self_iff hr hnames).mpr id

end Project

end ApiOutline
