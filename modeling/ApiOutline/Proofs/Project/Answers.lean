import ApiOutline.Proofs.Config.Circles
import ApiOutline.Proofs.Project.Outputs

/-!
# When a project that is not strict answers

A project that is not strict goes on with defaults where its configuration is at fault. What the
lists of the configuration ask for is searched for as it stands, though, and a source is read when
its module is asked for, so a request can fail all the same. Here is told exactly when: the sources
are found if the patterns of `include` are acceptable and nothing stops the search for them, or the
walk below the root (`Finds`); the entry of a module is answered if the sources are found and the
file, if it is one of them, can be read (`Opens`); and the entry of the main module if the package
file can be loaded and, where it names an entry point, the entry of the source that emits it is
answered (`entries_answered`). The files that are generated for a source can always be told.

Answers are described from consistent caches on (`Yields`), so they are the same whatever was asked
before.
-/

namespace ApiOutline

/-! ### Configurations that load -/

namespace Config

variable {d : Disk} {path : String} {fields : Json.Fields}

/-- A file holds a JSON object in UTF-8, in which containers are nested at most `room` deep. -/
def Holds (room : Nat) (d : Disk) (path : String) (comments : Bool) (fields : Json.Fields) : Prop :=
  ∃ file text, d.read path = .ok file ∧ file.text = .ok text ∧
    Json.readWithin room (if comments then Json.stripComments text else text) = .ok (.obj fields)

/-- A file that holds an object loads: it gives the object, or nothing if its text is blank. -/
private theorem result_loadWithin_of_holds {room : Nat} {comments : Bool}
    (h : Holds room d path comments fields) :
    (loadWithin room d path false comments).result = .ok [] ∨
      (loadWithin room d path false comments).result = .ok fields := by
  obtain ⟨file, text, hfile, htext, hread⟩ := h
  rw [loadWithin, hfile]
  dsimp only
  rw [htext]
  dsimp only
  rw [parse, hread]
  by_cases hblank :
      Text.isBlankText (if comments = true then Json.stripComments text else text) = true
  · rw [if_pos hblank]
    exact .inl rfl
  · rw [if_neg hblank]
    exact .inr rfl

private theorem exists_load_of_holds {comments : Bool}
    (h : Holds d.limits.nesting d path comments fields) :
    ∃ config, (load d path false comments).result = .ok config :=
  (result_loadWithin_of_holds h).elim (fun h => ⟨_, h⟩) fun h => ⟨_, h⟩

private theorem exists_loadLevel_of_holds {fuel : Nat}
    (h : Holds (d.limits.nestingBelow 0) d path true fields)
    (hextends : fields.get? "extends" = none ∨ fields.get? "extends" = some .null) :
    ∃ config, (loadLevel d (Path.dirname path) false (fuel + 1) [] path).result = .ok config := by
  have hload : ∃ config,
      (loadWithin (d.limits.nestingBelow ([] : List String).length) d path false true).result =
        .ok config ∧ (config = [] ∨ config = fields) :=
    (result_loadWithin_of_holds h).elim (fun h => ⟨_, h, .inl rfl⟩) fun h => ⟨_, h, .inr rfl⟩
  obtain ⟨config, hload, hconfig⟩ := hload
  by_cases hnil : config = []
  · refine ⟨[], ?_⟩
    rw [loadLevel, if_neg (by simp), Outcome.bind_eq, Outcome.result_andThen, hload, hnil]
    rfl
  · -- the settings are seen from the folder of the file itself, so no way has to be found
    have hanchor : ∃ anchored,
        anchor d config (Path.dirname path) (Path.dirname path) = .ok anchored := by
      rw [anchor, if_pos rfl]
      exact ⟨_, rfl⟩
    obtain ⟨anchored, hanchor⟩ := hanchor
    obtain rfl := hconfig.resolve_left hnil
    rw [← get?_extends_of_anchor hanchor] at hextends
    exact ⟨_, (result_loadLevel_of_ne_nil _ List.not_mem_nil hload hnil hanchor).1 hextends⟩

/-- **A configuration that extends nothing** loads when its file holds an object. -/
theorem exists_loadChain_of_holds
    (h : Holds (d.limits.nestingBelow 0) d (d.absolute path) true fields)
    (hextends : fields.get? "extends" = none ∨ fields.get? "extends" = some .null) :
    ∃ config, (loadChain d path false).result = .ok config :=
  exists_loadLevel_of_holds h hextends

end Config

namespace Project

variable {p : Project} {d : Disk} {α β : Type}

/-! ### Queries from consistent caches -/

/-- From consistent caches a query always ends as `x`, and it leaves consistent caches. -/
def Yields (p : Project) (d : Disk) (q : Query α) (x : Except Failure α) : Prop :=
  ∀ cache, Consistent p d cache → Consistent p d (q cache).1 ∧ (q cache).2.result = x

namespace Yields

variable {q : Query α} {x : Except Failure α} {f : α → Query β} {g : α → Except Failure β}

theorem result_eq (h : Yields p d q x) : (q {}).2.result = x :=
  (h {} (.empty p d)).2

theorem of_transparent (hq : Transparent p d q) (hx : (q {}).2.result = x) : Yields p d q x := by
  intro cache h
  obtain ⟨hcache, hresult⟩ := hq cache h
  exact ⟨hcache, hresult.trans hx⟩

theorem of_eq (h : Yields p d q x) {y : Except Failure α} (hxy : x = y) : Yields p d q y :=
  hxy ▸ h

theorem lift (x : Outcome Failure α) : Yields p d (.lift x) x.result :=
  fun _ h => ⟨h, rfl⟩

theorem pure (a : α) : Yields p d (pure a) (.ok a) :=
  lift (.ok a)

/-- **One query after another**: the second starts where the first one ends, if it does not
fail. -/
theorem bind (hq : Yields p d q x) (hf : ∀ a, x = .ok a → Yields p d (f a) (g a)) :
    Yields p d (q >>= f) (x >>= g) := by
  intro cache h
  obtain ⟨hcache, hresult⟩ := hq cache h
  cases x with
  | error e =>
    rw [Query.bind_of_error hresult]
    exact ⟨hcache, rfl⟩
  | ok a =>
    rw [Query.bind_of_ok hresult]
    exact hf a rfl _ hcache

/-- A query that is answered is followed by the next one. -/
theorem bind_ok {a : α} (hq : Yields p d q (.ok a)) {y : Except Failure β}
    (hf : Yields p d (f a) y) : Yields p d (q >>= f) y := by
  intro cache h
  obtain ⟨hcache, hresult⟩ := hq cache h
  rw [Query.bind_of_ok hresult]
  exact hf _ hcache

end Yields

/-! ### The configuration -/

/-- The options of the compiler in its configuration; there are none where they are no object. -/
def optionsIn (config : Json.Fields) : Json.Fields :=
  match config.get? "compilerOptions" with
  | some (.obj options) => options
  | _ => []

/-- The path of the entry point in the fields of a package file, if they hold one. -/
def entryPoint (p : Project) (package : Json.Fields) : Option String :=
  match package.get? "main" with
  | some (.str main) =>
    if Text.isBlankText main then none else some (Path.normalize (Path.join p.root main))
  | _ => none

theorem result_compilerOptions (config : Json.Fields) :
    (Config.compilerOptions config false).result = .ok (optionsIn config) := by
  rw [Config.compilerOptions, optionsIn]
  split <;> simp_all

private theorem result_mainFile (p : Project) (package : Json.Fields) :
    (Config.mainFile package p.root false).result = .ok (p.entryPoint package) := by
  rw [Config.mainFile, entryPoint]
  split
  · next h => rw [h]; rfl
  · next h => rw [h]; rfl
  · next main h =>
    rw [h]
    dsimp only
    split <;> rfl
  · next value _ hstr h =>
    rw [h]
    cases value with
    | str main => exact absurd rfl (hstr main)
    | _ => rfl

theorem yields_compiler (p : Project) (d : Disk) :
    Yields p d (p.compiler d) (Config.loadChain d p.compilerPath p.strict).result := by
  refine .of_transparent (transparent_compiler p d) ?_
  rw [compiler, Query.snd_cached rfl, Query.lift_apply]

section Lenient

variable {config : Json.Fields} (hlenient : p.strict = false)
  (hconfig : (Config.loadChain d p.compilerPath p.strict).result = .ok config)

include hlenient hconfig

/-- A project that is not strict can do without options. -/
private theorem yields_options : Yields p d (p.options d) (.ok (optionsIn config)) := by
  refine (Yields.of_eq (yields_compiler p d) hconfig).bind_ok ?_
  rw [hlenient]
  exact .of_eq (.lift _) (result_compilerOptions config)

private theorem yields_optionFolder (name : String) :
    Yields p d (p.optionFolder d name) (.ok (p.folderIn (optionsIn config) name)) := by
  rw [optionFolder_eq]
  exact (yields_options hlenient hconfig).bind_ok (.pure _)

/-- The folders that a walk for sources leaves out. -/
def outputFolders (p : Project) (config : Json.Fields) : List String :=
  (p.folderIn (optionsIn config) "outDir").toList ++
    (p.folderIn (optionsIn config) "declarationDir").toList

/-- The sources are those that the lists name, or what a walk finds that leaves out the output
folders. -/
private theorem yields_loadSources : Yields p d (p.loadSources d)
    ((p.configuredSources d config).result >>= fun configured =>
      configured.elim (Sources.discover d p.root (p.outputFolders config)).result .ok) := by
  rw [loadSources]
  refine (Yields.of_eq (yields_compiler p d) hconfig).bind_ok ?_
  refine (Yields.lift _).bind fun configured _ => ?_
  cases configured with
  | some paths => exact (Yields.pure paths).bind_ok (.bind_ok (.lift _) (.pure paths))
  | none =>
    refine (yields_optionFolder hlenient hconfig "outDir").bind_ok ?_
    refine (yields_optionFolder hlenient hconfig "declarationDir").bind_ok ?_
    -- the note about what was found does not change it
    have hnote (paths : List String) (text : String) :
        Yields p d (do .lift (.log .info .project text); return paths) (.ok paths) :=
      .bind_ok (.lift _) (.pure paths)
    refine Yields.of_eq ((Yields.lift _).bind fun paths _ => hnote paths _) ?_
    exact bind_pure _

private theorem yields_sources : Yields p d (p.sources d)
    ((p.configuredSources d config).result >>= fun configured =>
      configured.elim (Sources.discover d p.root (p.outputFolders config)).result .ok) := by
  refine .of_transparent (likeness_transparent p d).ask_sources ?_
  rw [sources, Query.snd_cached rfl]
  exact (yields_loadSources hlenient hconfig).result_eq

end Lenient

/-! ### Finding sources -/

private theorem exists_discover_iff {folder : String} {excluded : List String} :
    (∃ paths, (Sources.discover d folder excluded).result = .ok paths) ↔
      ∃ entries, d.scan (d.absolute folder) = .ok entries ∧
        Sources.depthIn (excluded.map d.absolute) (d.absolute folder) entries ≤ d.limits.walk := by
  constructor
  · rintro ⟨paths, h⟩
    obtain ⟨entries, hentries, hdepth, -⟩ := Sources.discover_eq_ok_iff.mp h
    exact ⟨entries, hentries, hdepth⟩
  · rintro ⟨entries, hentries, hdepth⟩
    exact ⟨_, Sources.discover_eq_ok_iff.mpr ⟨entries, hentries, hdepth, rfl⟩⟩

theorem exists_gather_iff {f : Json → Outcome Failure (List String)} {entries : List Json} :
    (∃ all, (gather f entries).result = .ok all) ↔
      ∀ entry ∈ entries, ∃ found, (f entry).result = .ok found := by
  induction entries with
  | nil => exact iff_of_true ⟨[], rfl⟩ nofun
  | cons entry rest ih =>
    rw [List.forall_mem_cons, ← ih, gather, Outcome.bind_eq, Outcome.result_andThen,
      Except.exists_bind_eq_ok_iff]
    simp only [Outcome.bind_eq, Outcome.pure_eq, Outcome.result_andThen, Outcome.result_ok,
      Except.exists_bind_eq_ok_iff]
    constructor
    · rintro ⟨here, hhere, others, hothers, -⟩
      exact ⟨⟨here, hhere⟩, others, hothers⟩
    · rintro ⟨⟨here, hhere⟩, others, hothers⟩
      exact ⟨here, hhere, others, hothers, _, rfl⟩

/-- An entry of `files` is looked up, and left out if no file is there. -/
theorem exists_fileEntry (p : Project) (d : Disk) (entry : Json) :
    ∃ found, (p.fileEntry d entry).result = .ok found := by
  rw [fileEntry]
  split
  · exact ⟨_, rfl⟩
  · exact ⟨[], rfl⟩

/-- Of files it can be told whether they are kept. -/
private theorem exists_kept {exclude paths : List String} (h : ∀ path ∈ paths, path ≠ "") :
    ∃ found, p.kept d exclude paths = .ok found := by
  induction paths with
  | nil => exact ⟨[], rfl⟩
  | cons path rest ih =>
    obtain ⟨hpath, hrest⟩ := List.forall_mem_cons.mp h
    obtain ⟨way, hway⟩ : ∃ way, d.relative path p.root = .ok way :=
      Path.exists_relative_iff.mpr hpath
    obtain ⟨others, hothers⟩ := ih hrest
    rw [kept, keeps, hway, hothers]
    exact ⟨_, rfl⟩

/-- What an entry of `include` asks for can be searched for: its pattern is acceptable, and nothing
stops the search. -/
structure Searches (p : Project) (d : Disk) (entry : Json) : Prop where
  acceptable : Pattern.Acceptable d.limits.segments (Sources.expandInclude d p.root entry.text)
  found : ∀ pattern,
    Pattern.read d.limits.segments (Sources.expandInclude d p.root entry.text) = .ok pattern →
    ∃ found, d.glob p.root pattern = .ok found

theorem exists_includeEntry_iff {exclude : List String} {entry : Json} :
    (∃ found, (p.includeEntry d exclude entry).result = .ok found) ↔ p.Searches d entry := by
  simp only [includeEntry_eq_ok_iff]
  constructor
  · rintro ⟨_, pattern, hpattern, found, hfound, -⟩
    refine ⟨Pattern.exists_read_iff.mp ⟨pattern, hpattern⟩, fun pattern' hpattern' => ?_⟩
    rw [← Except.ok.inj (hpattern.symm.trans hpattern')]
    exact ⟨found, hfound⟩
  · intro h
    obtain ⟨pattern, hpattern⟩ := Pattern.exists_read_iff.mpr h.acceptable
    obtain ⟨found, hfound⟩ := h.found pattern hpattern
    have hpaths : ∀ path ∈ found, path ≠ "" := fun path hpath =>
      Disk.ne_empty_of_isFile (Disk.isFile_of_mem_glob hfound hpath)
    obtain ⟨kept, hkept⟩ := exists_kept hpaths
    exact ⟨kept, pattern, hpattern, found, hfound, hkept⟩

/-- The configuration leads to sources: the entries of `include` can be searched for, and where it
has neither list, the folders below the root can be gone through. -/
structure Finds (p : Project) (d : Disk) (config : Json.Fields) : Prop where
  searches : ∀ entry ∈ (listSetting config "include").getD [], p.Searches d entry
  walks : listSetting config "files" = none → listSetting config "include" = none →
    ∃ entries, d.scan (d.absolute p.root) = .ok entries ∧
      Sources.depthIn ((p.outputFolders config).map d.absolute) (d.absolute p.root) entries ≤
        d.limits.walk

/-- What the entries of `include` find is all that can fail where there is a list. -/
private theorem result_configuredSources {config : Json.Fields}
    (h : ¬(listSetting config "files" = none ∧ listSetting config "include" = none)) :
    ∃ collect : List String → List String, (p.configuredSources d config).result =
      (gather (p.includeEntry d (excludes config))
        ((listSetting config "include").getD [])).result.map fun found => some (collect found) := by
  obtain ⟨named, hnamed⟩ : ∃ named, (gather (p.fileEntry d)
      ((listSetting config "files").getD [])).result = .ok named :=
    exists_gather_iff.mpr fun entry _ => exists_fileEntry p d entry
  rw [configuredSources]
  split
  · next hfiles hinclude => exact absurd ⟨hfiles, hinclude⟩ h
  · refine ⟨fun found => Sources.sorted ((named ++ found).eraseDups.filter Sources.isSource), ?_⟩
    rw [Outcome.bind_eq, Outcome.result_andThen, hnamed]
    exact Outcome.result_andThen_pure _ _

private theorem exists_gather_include_iff {config : Json.Fields} {exclude : List String} :
    (∃ found, (gather (p.includeEntry d exclude)
      ((listSetting config "include").getD [])).result = .ok found) ↔
      ∀ entry ∈ (listSetting config "include").getD [], p.Searches d entry := by
  rw [exists_gather_iff]
  exact forall₂_congr fun entry _ => exists_includeEntry_iff

/-- **Sources are found** exactly when the configuration loads and leads to them. -/
theorem exists_sources_iff (hlenient : p.strict = false) :
    (∃ paths, (p.sources d {}).2.result = .ok paths) ↔
      ∃ config, (Config.loadChain d p.compilerPath p.strict).result = .ok config ∧
        p.Finds d config := by
  have hfinds {config : Json.Fields}
      (hconfig : (Config.loadChain d p.compilerPath p.strict).result = .ok config) :
      (∃ paths, (p.sources d {}).2.result = .ok paths) ↔ p.Finds d config := by
    rw [(yields_sources hlenient hconfig).result_eq]
    by_cases hlists : listSetting config "files" = none ∧ listSetting config "include" = none
    · -- without lists the folders below the root are gone through
      obtain ⟨hfiles, hinclude⟩ := hlists
      have hnone : (p.configuredSources d config).result = .ok none := by
        rw [configuredSources, hfiles, hinclude, Outcome.result_ok]
      rw [hnone, Except.exists_bind_eq_ok_iff]
      simp only [Except.ok.injEq, exists_eq_left', Option.elim_none, exists_discover_iff]
      constructor
      · intro h
        refine ⟨fun entry hentry => ?_, fun _ _ => h⟩
        rw [hinclude] at hentry
        cases hentry
      · intro h
        exact h.walks hfiles hinclude
    · obtain ⟨collect, hcollect⟩ := result_configuredSources (p := p) (d := d) hlists
      rw [hcollect, Except.exists_bind_eq_ok_iff]
      constructor
      · rintro ⟨_, h, -⟩
        obtain ⟨found, hfound, -⟩ := Except.map_eq_ok_iff.mp h
        exact ⟨exists_gather_include_iff.mp ⟨found, hfound⟩,
          fun hfiles hinclude => absurd ⟨hfiles, hinclude⟩ hlists⟩
      · intro h
        obtain ⟨found, hfound⟩ := exists_gather_include_iff.mpr h.searches
        rw [hfound]
        exact ⟨_, rfl, _, rfl⟩
  constructor
  · rintro ⟨paths, h⟩
    obtain ⟨config, hconfig, -⟩ := exists_config_of_sources h
    exact ⟨config, hconfig, (hfinds hconfig).mp ⟨paths, h⟩⟩
  · rintro ⟨config, hconfig, h⟩
    exact (hfinds hconfig).mpr h

/-! ### Entries -/

/-- The normal path under which a module is looked up. -/
def fullPath (p : Project) (path : String) : String :=
  Path.normalize (Path.join p.root path)

/-- The file of a module can be read, if it is one of the sources. -/
def Opens (p : Project) (d : Disk) (paths : List String) (path : String) : Prop :=
  p.fullPath path ∈ paths → ∃ file, d.read (d.absolute (p.fullPath path)) = .ok file

/-- One of the candidates is compiled from a source. -/
def emits (p : Project) (d : Disk) (candidates : List String) (path : String) : Bool :=
  match (p.outputs d path {}).2.result with
  | .ok outputs => outputs.any candidates.contains
  | .error _ => false

section Entries

variable {paths : List String} (hlenient : p.strict = false)
  (hsources : (p.sources d {}).2.result = .ok paths)

include hsources

private theorem exists_module_iff (path : String) :
    (∃ found, (p.module d path {}).2.result = .ok found) ↔ p.Opens d paths path := by
  rw [result_module hsources, Opens, fullPath]
  split
  · next hmem =>
    rw [result_loadModule]
    constructor
    · rintro ⟨_, h⟩ -
      obtain ⟨_, h, -⟩ := Except.map_eq_ok_iff.mp h
      obtain ⟨file, h, -⟩ := Except.map_eq_ok_iff.mp h
      exact ⟨file, Except.mapError_eq_ok_iff.mp h⟩
    · intro h
      obtain ⟨file, hfile⟩ := h hmem
      rw [hfile]
      exact ⟨_, rfl⟩
  · next hmem => exact iff_of_true ⟨none, rfl⟩ fun h => absurd h hmem

private theorem module_eq_none_iff (path : String) :
    (p.module d path {}).2.result = .ok none ↔ p.fullPath path ∉ paths := by
  rw [result_module hsources, fullPath]
  split
  · next hmem =>
    refine iff_of_false (fun h => ?_) (absurd hmem)
    obtain ⟨_, -, h⟩ := Except.map_eq_ok_iff.mp h
    cases h
  · next hmem => exact iff_of_true rfl hmem

include hlenient

/-- Where there are sources there are options. -/
private theorem exists_options_of_sources : ∃ options, (p.options d {}).2.result = .ok options := by
  obtain ⟨config, hconfig, -⟩ := (exists_sources_iff hlenient).mp ⟨paths, hsources⟩
  exact ⟨_, (yields_options hlenient hconfig).result_eq⟩

/-- The entry of a module is answered as the module is, and there is none where there is no
module. -/
private theorem yields_entryAt (path : String) : ∃ complete : Module → ModuleEntry,
    Yields p d (p.entryAt d path)
      ((p.module d path {}).2.result.map (Option.map complete)) := by
  obtain ⟨options, ho⟩ := exists_options_of_sources hlenient hsources
  choose outputs _ houtputs using fun source => gives_outputs ho hsources source
  refine ⟨fun m => ⟨p.root, m, outputs m.path⟩, ?_⟩
  have hmodule : Yields p d (p.module d path) (p.module d path {}).2.result :=
    .of_transparent ((likeness_transparent p d).ask_module path) rfl
  refine Yields.of_eq (hmodule.bind fun found _ => ?_) (bind_pure_comp _ _)
  cases found with
  | none => exact .pure none
  | some m => exact Yields.bind_ok (houtputs m.path) (.pure _)

private theorem yields_moduleEntry (path : String) : ∃ complete : Module → ModuleEntry,
    Yields p d (p.moduleEntry d path)
      ((p.module d path {}).2.result.map (Option.map complete)) := by
  obtain ⟨complete, hentry⟩ := yields_entryAt hlenient hsources path
  refine ⟨complete, .of_eq (hentry.bind fun entry _ => ?_) (bind_pure _)⟩
  cases entry with
  | some entry => exact .pure (some entry)
  | none => exact Yields.bind_ok (.lift _) (.pure none)

/-- The first source that emits one of the candidates is found. -/
private theorem yields_firstEmitting (candidates among : List String) :
    Yields p d (p.firstEmitting d candidates among)
      (.ok (among.find? (p.emits d candidates))) := by
  obtain ⟨options, ho⟩ := exists_options_of_sources hlenient hsources
  induction among with
  | nil => exact .pure none
  | cons path rest ih =>
    obtain ⟨outputs, -, houtputs⟩ := gives_outputs ho hsources path
    have hemits : p.emits d candidates path = outputs.any candidates.contains := by
      rw [emits, Yields.result_eq houtputs]
    rw [firstEmitting, List.find?_cons, hemits]
    refine Yields.bind_ok houtputs ?_
    cases outputs.any candidates.contains with
    | true => exact .pure (some path)
    | false => exact ih

end Entries

private theorem yields_mainFile (hlenient : p.strict = false) : Yields p d (p.mainFile d)
    ((Config.load d p.packagePath p.strict false).result.map p.entryPoint) := by
  have hpackage : Yields p d (p.package d) (Config.load d p.packagePath p.strict false).result := by
    refine .of_transparent (transparent_package p d) ?_
    rw [package, Query.snd_cached rfl, Query.lift_apply]
  refine .of_eq (hpackage.bind fun package _ => ?_) (bind_pure_comp _ _)
  rw [hlenient]
  exact .of_eq (.lift _) (result_mainFile p package)

/-- **The main module** is answered as the entry of the first source that emits the entry point of
the package. -/
theorem yields_mainModuleEntry (hlenient : p.strict = false) : Yields p d (p.mainModuleEntry d)
    ((Config.load d p.packagePath p.strict false).result.map p.entryPoint >>= fun main =>
      main.elim (.ok none) fun main => (p.sources d {}).2.result >>= fun paths =>
        (paths.find? (p.emits d (mainCandidates main))).elim (.ok none) fun path =>
          (p.entryAt d path {}).2.result) := by
  refine (yields_mainFile hlenient).bind fun main _ => ?_
  cases main with
  | none => exact .pure none
  | some main =>
    have hsources : Yields p d (p.sources d) (p.sources d {}).2.result :=
      .of_transparent (likeness_transparent p d).ask_sources rfl
    refine hsources.bind fun paths hpaths => ?_
    refine (yields_firstEmitting hlenient hpaths _ paths).bind_ok ?_
    cases paths.find? (p.emits d (mainCandidates main)) with
    | none => exact Yields.bind_ok (.lift _) (.pure none)
    | some path =>
      refine Yields.bind_ok (.lift _) ?_
      exact .of_transparent ((likeness_transparent p d).ask_entryAt path) rfl

/-- How the main module is answered comes down to the entry of one source. -/
private theorem mainModuleEntry_iff (hlenient : p.strict = false) {P : Option ModuleEntry → Prop}
    (hnone : P none) :
    (∃ found, (p.mainModuleEntry d {}).2.result = .ok found ∧ P found) ↔
      ∃ package, (Config.load d p.packagePath p.strict false).result = .ok package ∧
        ∀ main ∈ p.entryPoint package, ∃ paths, (p.sources d {}).2.result = .ok paths ∧
          ∀ path ∈ paths.find? (p.emits d (mainCandidates main)),
            ∃ found, (p.entryAt d path {}).2.result = .ok found ∧ P found := by
  rw [(yields_mainModuleEntry hlenient).result_eq]
  constructor
  · rintro ⟨found, h, hfound⟩
    obtain ⟨_, hmain, h⟩ := Except.bind_eq_ok_iff.mp h
    obtain ⟨package, hpackage, rfl⟩ := Except.map_eq_ok_iff.mp hmain
    refine ⟨package, hpackage, fun main hmain => ?_⟩
    rw [Option.mem_def.mp hmain] at h
    obtain ⟨paths, hpaths, h⟩ := Except.bind_eq_ok_iff.mp h
    refine ⟨paths, hpaths, fun path hpath => ?_⟩
    rw [Option.mem_def.mp hpath] at h
    exact ⟨found, h, hfound⟩
  · rintro ⟨package, hpackage, h⟩
    have hentry : ∃ found, ((p.entryPoint package).elim (.ok none) fun main =>
        (p.sources d {}).2.result >>= fun paths =>
          (paths.find? (p.emits d (mainCandidates main))).elim (.ok none) fun path =>
            (p.entryAt d path {}).2.result) = .ok found ∧ P found := by
      cases hmain : p.entryPoint package with
      | none => exact ⟨none, rfl, hnone⟩
      | some main =>
        obtain ⟨paths, hpaths, h⟩ := h main hmain
        rw [Option.elim_some, hpaths]
        cases hpath : paths.find? (p.emits d (mainCandidates main)) with
        | none => exact ⟨none, Except.bind_eq_ok_iff.mpr ⟨paths, rfl, by rw [hpath]; rfl⟩, hnone⟩
        | some path =>
          obtain ⟨found, hfound, hP⟩ := h path hpath
          exact ⟨found, Except.bind_eq_ok_iff.mpr ⟨paths, rfl, by rw [hpath]; exact hfound⟩, hP⟩
    obtain ⟨found, hfound, hP⟩ := hentry
    exact ⟨found, Except.bind_eq_ok_iff.mpr
      ⟨_, Except.map_eq_ok_iff.mpr ⟨package, hpackage, rfl⟩, hfound⟩, hP⟩

/-- Without sources no module is answered. -/
private theorem exists_sources_of_entryAt {path : String} {found : Option ModuleEntry}
    (h : (p.entryAt d path {}).2.result = .ok found) :
    ∃ paths, (p.sources d {}).2.result = .ok paths := by
  rw [entryAt] at h
  obtain ⟨_, hmodule, -⟩ := Query.result_bind_eq_ok_iff.mp h
  rw [module_eq] at hmodule
  obtain ⟨paths, hpaths, -⟩ := Query.result_bind_eq_ok_iff.mp hmodule
  exact ⟨paths, hpaths⟩

/-- An answer for a module is one for its entry. -/
private theorem map_complete_iff {x : Except Failure (Option Module)}
    {complete : Module → ModuleEntry} :
    ((∃ entry, x.map (Option.map complete) = .ok entry) ↔ ∃ found, x = .ok found) ∧
      (x.map (Option.map complete) = .ok none ↔ x = .ok none) := by
  cases x with
  | error e => simp [Except.map]
  | ok found => cases found <;> simp [Except.map]

section Entries

variable (hlenient : p.strict = false) (path : String)

include hlenient

private theorem entryAt_iff {paths : List String}
    (hsources : (p.sources d {}).2.result = .ok paths) :
    ((∃ found, (p.entryAt d path {}).2.result = .ok found) ↔ p.Opens d paths path) ∧
      ((p.entryAt d path {}).2.result = .ok none ↔ p.fullPath path ∉ paths) := by
  obtain ⟨complete, hentry⟩ := yields_entryAt hlenient hsources path
  rw [hentry.result_eq, map_complete_iff.1, map_complete_iff.2]
  exact ⟨exists_module_iff hsources path, module_eq_none_iff hsources path⟩

/-- **The entry of a module** is answered when there are sources and the module, if it is one of
them, can be read; there is none if it is not one of them. -/
theorem moduleEntry_iff :
    ((∃ found, (p.moduleEntry d path {}).2.result = .ok found) ↔
      ∃ paths, (p.sources d {}).2.result = .ok paths ∧ p.Opens d paths path) ∧
    ((p.moduleEntry d path {}).2.result = .ok none ↔
      ∃ paths, (p.sources d {}).2.result = .ok paths ∧ p.fullPath path ∉ paths) := by
  by_cases h : ∃ paths, (p.sources d {}).2.result = .ok paths
  · obtain ⟨paths, hsources⟩ := h
    have hpaths {P : List String → Prop} :
        (∃ paths, (p.sources d {}).2.result = .ok paths ∧ P paths) ↔ P paths := by
      simp only [hsources, Except.ok.injEq, exists_eq_left']
    obtain ⟨complete, hentry⟩ := yields_moduleEntry hlenient hsources path
    rw [hentry.result_eq, map_complete_iff.1, map_complete_iff.2, hpaths, hpaths]
    exact ⟨exists_module_iff hsources path, module_eq_none_iff hsources path⟩
  · have hnone (found : Option ModuleEntry) : (p.moduleEntry d path {}).2.result ≠ .ok found := by
      intro hfound
      rw [moduleEntry] at hfound
      obtain ⟨_, hentry, -⟩ := Query.result_bind_eq_ok_iff.mp hfound
      exact h (exists_sources_of_entryAt hentry)
    refine ⟨iff_of_false ?_ ?_, iff_of_false (hnone none) ?_⟩
    · exact fun ⟨found, hfound⟩ => hnone found hfound
    · exact fun ⟨paths, hpaths, _⟩ => h ⟨paths, hpaths⟩
    · exact fun ⟨paths, hpaths, _⟩ => h ⟨paths, hpaths⟩

end Entries

/-- The project at `root` that is not strict. -/
def lenient (root : String) : Project :=
  ⟨root, false⟩

/-- **When entries are answered** by a project that is not strict. Its configurations load when
their files hold objects and extend nothing. Sources are found exactly when the configuration leads
to them. The entry of a module is answered exactly when sources are found and its file can be read,
if it is one of them, and is none exactly when it is not; and so it is for the main module with the
source that emits the entry point of the package, if there is one. -/
theorem entries_answered (root : String) (d : Disk) :
    ((∀ fields, Config.Holds d.limits.nesting d (lenient root).packagePath false fields →
        ∃ package, (Config.load d (lenient root).packagePath false false).result = .ok package) ∧
      ∀ fields,
        Config.Holds (d.limits.nestingBelow 0) d (d.absolute (lenient root).compilerPath) true
          fields →
        fields.get? "extends" = none ∨ fields.get? "extends" = some .null →
        ∃ config,
          (Config.loadChain d (lenient root).compilerPath false).result = .ok config) ∧
    ((∃ paths, ((lenient root).sources d {}).2.result = .ok paths) ↔
      ∃ config, (Config.loadChain d (lenient root).compilerPath false).result = .ok config ∧
        (lenient root).Finds d config) ∧
    (∀ path,
      ((∃ found, ((lenient root).moduleEntry d path {}).2.result = .ok found) ↔
        ∃ paths, ((lenient root).sources d {}).2.result = .ok paths ∧
          (lenient root).Opens d paths path) ∧
      (((lenient root).moduleEntry d path {}).2.result = .ok none ↔
        ∃ paths, ((lenient root).sources d {}).2.result = .ok paths ∧
          (lenient root).fullPath path ∉ paths)) ∧
    ((∃ found, ((lenient root).mainModuleEntry d {}).2.result = .ok found) ↔
      ∃ package, (Config.load d (lenient root).packagePath false false).result = .ok package ∧
        ∀ main ∈ (lenient root).entryPoint package,
          ∃ paths, ((lenient root).sources d {}).2.result = .ok paths ∧
            ∀ path ∈ paths.find? ((lenient root).emits d (mainCandidates main)),
              (lenient root).Opens d paths path) ∧
    (((lenient root).mainModuleEntry d {}).2.result = .ok none ↔
      ∃ package, (Config.load d (lenient root).packagePath false false).result = .ok package ∧
        ∀ main ∈ (lenient root).entryPoint package,
          ∃ paths, ((lenient root).sources d {}).2.result = .ok paths ∧
            ∀ path ∈ paths.find? ((lenient root).emits d (mainCandidates main)),
              (lenient root).fullPath path ∉ paths) := by
  have hanswered :=
    mainModuleEntry_iff (p := lenient root) (d := d) rfl (P := fun _ => True) trivial
  have hnone := mainModuleEntry_iff (p := lenient root) (d := d) rfl (P := (· = none)) rfl
  simp only [and_true] at hanswered
  simp only [exists_eq_right] at hnone
  refine ⟨⟨fun _ => Config.exists_load_of_holds, fun _ => Config.exists_loadChain_of_holds⟩,
    exists_sources_iff rfl, fun path => moduleEntry_iff rfl path, ?_, ?_⟩
  · rw [hanswered]
    refine exists_congr fun package => and_congr_right fun _ => forall₂_congr fun main _ =>
      exists_congr fun paths => and_congr_right fun hsources => forall₂_congr fun path _ => ?_
    exact (entryAt_iff rfl path hsources).1
  · rw [hnone]
    refine exists_congr fun package => and_congr_right fun _ => forall₂_congr fun main _ =>
      exists_congr fun paths => and_congr_right fun hsources => forall₂_congr fun path _ => ?_
    exact (entryAt_iff rfl path hsources).2

end Project

end ApiOutline
