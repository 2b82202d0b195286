import ApiOutline.Proofs.Project.Enumeration
import ApiOutline.Proofs.Project.Exclusion
import ApiOutline.Proofs.Sources.Walk

/-!
# Output folders and sources

A walk below the root goes into no folder in which the compiler puts its files, so what was
generated there is never taken for a source. An entry of `include` knows nothing of these folders:
what it comes upon is a source there as anywhere else, unless a folder on the way goes by the name
of one without sources (`sources_below_outputs`).
-/

namespace ApiOutline

open ApiOutline.Path (IsStep IsName Folder)
open ApiOutline.Path.Folder (wayText)

namespace Sources

private theorem throughSkipped_wayText {way : List String} (hne : way ≠ [])
    (h : ∀ n ∈ way, IsStep n) :
    throughSkipped (wayText way) = false ↔ ∀ n ∈ way.dropLast, n ∉ skippedFolders := by
  rw [throughSkipped, Folder.segments_wayText hne h]
  simp

end Sources

namespace Project

variable {p : Project} {d : Disk} {config : Json.Fields} {paths : List String}

/-! ### Walking for sources -/

private theorem walked_eq_ok_iff : p.walked d = .ok paths ↔
    ∃ out declarations, (p.outDir d {}).2.result = .ok out ∧
      (p.declarationDir d {}).2.result = .ok declarations ∧
      (Sources.discover d p.root (out.toList ++ declarations.toList)).result = .ok paths := by
  simp only [walked, Except.bind_eq_ok_iff, exists_and_left]

/-- Without lists the sources are found by a walk. -/
theorem result_sources_of_walk
    (hconfig : (Config.loadChain d p.compilerPath p.strict).result = .ok config)
    (hfiles : listSetting config "files" = none) (hinclude : listSetting config "include" = none) :
    (p.sources d {}).2.result = p.walked d := by
  have hnone : (p.configuredSources d config).result = .ok none := by
    rw [configuredSources, hfiles, hinclude]
    rfl
  rw [result_sources_of_config hconfig, sourcesBy, hnone]
  dsimp only [Bind.bind, Except.bind]

/-- What goes on from the root by names leads there. -/
theorem leadsTo_below {f : Folder} (hroot : p.root = f.path []) {way : List String}
    (hway : ∀ n ∈ way, IsName n) : p.LeadsTo (Path.below p.root way) way := by
  have hstep : ∀ n ∈ way, IsStep n := fun n hn => (hway n hn).toIsStep
  rw [LeadsTo, hroot, Sources.below_path (List.forall_mem_nil _) hstep, List.nil_append,
    Folder.normalize_of_isName hway, Folder.names_path hstep, Folder.names_path (by simp),
    List.append_nil]

theorem LeadsTo.inj {s : String} {way way' : List String} (h : p.LeadsTo s way)
    (h' : p.LeadsTo s way') : way = way' :=
  List.append_cancel_left (h.symm.trans h')

/-- **A walk finds nothing below an output folder** that lies below the root. -/
theorem not_leadsTo_of_walked (hcwd : Path.isAbsolute d.cwd = true) (hd : d.WellNamed)
    (hdistinct : d.Distinct) (hp : p.OpenOn d) {folder : String}
    (hfolder : (p.outDir d {}).2.result = .ok (some folder) ∨
      (p.declarationDir d {}).2.result = .ok (some folder)) {way : List String}
    (hway : ∀ n ∈ way, IsName n) (hne : way ≠ []) (hbelow : folder = Path.below p.root way)
    (h : p.walked d = .ok paths) {s : String} (hs : s ∈ paths) {rest : List String}
    (hrest : rest ≠ []) : ¬p.LeadsTo s (way ++ rest) := by
  intro hleads
  obtain ⟨f, hroot⟩ := hp.exists_folder hcwd
  obtain ⟨out, declarations, hout, hdeclarations, h⟩ := walked_eq_ok_iff.mp h
  have hmem : folder ∈ out.toList ++ declarations.toList := by
    rcases hfolder with hfolder | hfolder
    · obtain rfl := Except.ok.inj (hout.symm.trans hfolder)
      exact List.mem_append_left _ (List.mem_singleton_self folder)
    · obtain rfl := Except.ok.inj (hdeclarations.symm.trans hfolder)
      exact List.mem_append_right _ (List.mem_singleton_self folder)
  have hstart : d.absolute p.root = p.root := by
    rw [hroot]
    exact Folder.absolute_of_isName (List.forall_mem_nil _) d.cwd
  obtain ⟨entries, hentries, -, hpaths⟩ :=
    (Sources.discover_finds hcwd hd hdistinct p.root _).2 paths h
  obtain ⟨above, name, item, hitem, hpasses, -, rfl, -⟩ := (hpaths s).mp hs
  have hfolderNamed : (Item.folder entries).wellNamed = true := by
    rw [Item.wellNamed]
    exact Disk.wellNamedIn_of_scan hd hentries
  rw [hstart] at hleads hpasses
  have heq := hleads.inj (leadsTo_below hroot (Item.isName_of_at? hfolderNamed hitem))
  -- the way to the output folder is part of the way to the source, so it is gone into
  obtain ⟨front, last, rfl⟩ := List.eq_nil_or_concat' way |>.resolve_left hne
  have hprefix : front ++ [last] <+: above := by
    refine ⟨rest.dropLast, ?_⟩
    have hdrop := congrArg List.dropLast heq
    rwa [List.dropLast_append_of_ne_nil hrest, List.dropLast_concat] at hdrop
  refine (hpasses front last hprefix).2.2 ?_
  rw [← hbelow]
  refine List.mem_map.mpr ⟨folder, hmem, ?_⟩
  rw [hbelow, hroot, Sources.below_path (List.forall_mem_nil _) fun n hn => (hway n hn).toIsStep]
  exact Folder.absolute_of_isName hway d.cwd

/-! ### Entries of `include` -/

/-- What entries of `include` alone enumerate at the end of a way below the root. -/
theorem Enumerates.mem_iff_of_leadsTo {f : Folder} (hroot : p.root = f.path [])
    {patterns : List Json} (h : p.Enumerates d [] patterns [] paths) {s : String}
    (habs : Path.isAbsolute s = true) {way : List String} (hne : way ≠ [])
    (hway : p.LeadsTo s way) : s ∈ paths ↔ Sources.isSource s = true ∧
      (∃ entry ∈ patterns, p.ComesUpon d entry s) ∧
        ∀ n ∈ way.dropLast, n ∉ Sources.skippedFolders := by
  have hstep : ∀ n ∈ way, IsStep n := fun n hn => (hway.isName habs n hn).toIsStep
  rw [h.mem_iff]
  simp only [not_named_nil, false_or, Contributed, hway.relative_eq hroot habs, Except.ok.injEq,
    exists_eq_left', List.not_mem_nil, false_imp_iff, implies_true, and_true,
    Sources.throughSkipped_wayText hne hstep]

/-- The sources of a project whose configuration has a list of `include` only are what its entries
enumerate, on any disk that differs in what its files hold only. -/
theorem enumerates_of_include {d' : Disk} (hd : d'.emptied = d.emptied)
    (hconfig : (Config.loadChain d' p.compilerPath p.strict).result = .ok config)
    (hfiles : listSetting config "files" = none) (hexclude : listSetting config "exclude" = none)
    {patterns : List Json} (hinclude : listSetting config "include" = some patterns) :
    (p.sources d' {}).2.result = .ok paths ↔ p.Enumerates d [] patterns [] paths := by
  rw [sources_eq_ok_iff_enumerates hd hconfig (has_list_of_include hinclude), entriesOf, entriesOf,
    entriesOf, hfiles, hinclude, hexclude]
  rfl

/-- **Output folders and sources**: without a list of `files` or of `exclude` a walk takes nothing
below an output folder for a source, and a list of `include` whatever it comes upon. -/
theorem sources_below_outputs (hcwd : Path.isAbsolute d.cwd = true) (hd : d.WellNamed)
    (hdistinct : d.Distinct) (hp : p.OpenOn d)
    (hconfig : (Config.loadChain d p.compilerPath p.strict).result = .ok config)
    (hfiles : listSetting config "files" = none) (hexclude : listSetting config "exclude" = none)
    {folder : String} (hfolder : (p.outDir d {}).2.result = .ok (some folder) ∨
      (p.declarationDir d {}).2.result = .ok (some folder)) {way : List String}
    (hway : ∀ n ∈ way, IsName n) (hne : way ≠ []) (hbelow : folder = Path.below p.root way)
    (hpaths : (p.sources d {}).2.result = .ok paths) {rest : List String} (hrest : rest ≠ []) :
    (listSetting config "include" = none → ∀ s ∈ paths, ¬p.LeadsTo s (way ++ rest)) ∧
    ∀ patterns, listSetting config "include" = some patterns →
      ∀ s, Path.isAbsolute s = true → p.LeadsTo s (way ++ rest) →
        (s ∈ paths ↔ Sources.isSource s = true ∧
          (∃ entry ∈ patterns, p.ComesUpon d entry s) ∧
            ∀ n ∈ way ++ rest.dropLast, n ∉ Sources.skippedFolders) := by
  refine ⟨fun hinclude s hs => ?_, fun patterns hinclude s habs hleads => ?_⟩
  · rw [result_sources_of_walk hconfig hfiles hinclude] at hpaths
    exact not_leadsTo_of_walked hcwd hd hdistinct hp hfolder hway hne hbelow hpaths hs hrest
  · obtain ⟨f, hroot⟩ := hp.exists_folder hcwd
    have hlisted := (enumerates_of_include rfl hconfig hfiles hexclude hinclude).mp hpaths
    rw [hlisted.mem_iff_of_leadsTo hroot habs (List.append_ne_nil_of_left_ne_nil hne rest) hleads,
      List.dropLast_append_of_ne_nil hrest]

/-- A package with the source `src/a.ts` and a declaration that was generated for it. -/
def emitting : Disk where
  entries := [
    ("lib", .folder [("a.d.ts", .file ⟨[], none, none⟩)]),
    ("src", .folder [("a.ts", .file ⟨[], none, none⟩)]),
    ("tsconfig.json", .file ⟨Utf8.encode ("\x7b\"include\":[\"**/*\"]," ++
      "\"compilerOptions\":\x7b\"outDir\":\"lib\",\"declaration\":true\x7d\x7d"), none, none⟩)]
  cwd := "/"
  limits := .uniform 8

/-- The generated declaration is listed as a source. -/
theorem sources_below_outputs_emitting :
    (atTop.outDir emitting {}).2.result = .ok (some "/lib") ∧
    ∃ paths, (atTop.sources emitting {}).2.result = .ok paths ∧ "/lib/a.d.ts" ∈ paths := by
  have hloaded : ∃ config,
      (Config.loadChain emitting atTop.compilerPath atTop.strict).result = .ok config ∧
      (listSetting config "files").isNone = true ∧ (listSetting config "exclude").isNone = true ∧
      (listSetting config "include").isSome = true ∧
      ∃ found, (gather (atTop.includeEntry emitting (([] : List Json).map Json.text))
        (entriesOf config "include")).result = .ok found ∧
          found = ["/tsconfig.json", "/lib/a.d.ts", "/src/a.ts"] := by decide +kernel
  have hout : ∃ folder, (atTop.outDir emitting {}).2.result = .ok folder ∧
      folder = some "/lib" := by decide +kernel
  obtain ⟨config, hconfig, hfiles, hexclude, hinclude, found, hfound, rfl⟩ := hloaded
  have hout := Except.eq_ok_of_exists hout
  rw [Option.isNone_iff_eq_none] at hfiles hexclude
  obtain ⟨patterns, hinclude⟩ := Option.isSome_iff_exists.mp hinclude
  have hpatterns : entriesOf config "include" = patterns := by rw [entriesOf, hinclude]; rfl
  rw [hpatterns] at hfound
  have hopen : atTop.OpenOn emitting := openOn_of_cwd rfl false
  -- the search comes upon the declaration
  have hdeclaration : "/lib/a.d.ts" ∈ ["/tsconfig.json", "/lib/a.d.ts", "/src/a.ts"] := by decide
  obtain ⟨entry, hentry, _, hentryFound, hmem⟩ := (mem_gather hfound).mp hdeclaration
  have hcontributed : atTop.Contributed emitting [entry] [] "/lib/a.d.ts" :=
    (mem_includeEntry_iff hentryFound).mp hmem
  obtain ⟨⟨_, hself, hcomes⟩, -⟩ := hcontributed
  obtain rfl := List.mem_singleton.mp hself
  have hpaths : (atTop.sources emitting {}).2.result = .ok ["/lib/a.d.ts", "/src/a.ts"] := by
    refine (enumerates_of_include rfl hconfig hfiles hexclude hinclude).mpr ?_
    exact enumerates_of_gather (by decide +kernel) ⟨[], rfl, _, hfound, by decide +kernel⟩
  refine ⟨hout, _, hpaths, ?_⟩
  have hcwd : Path.isAbsolute emitting.cwd = true := by decide
  have hnamed : emitting.WellNamed := by decide +kernel
  have hdistinct : emitting.Distinct := by decide +kernel
  have hway : ∀ n ∈ ["lib"], IsName n := by decide
  have hbelow : "/lib" = Path.below atTop.root ["lib"] := by decide +kernel
  have hleads : atTop.LeadsTo "/lib/a.d.ts" (["lib"] ++ ["a.d.ts"]) := by decide +kernel
  obtain ⟨-, hlisted⟩ := sources_below_outputs hcwd hnamed hdistinct hopen hconfig hfiles hexclude
    (.inl hout) hway (List.cons_ne_nil _ _) hbelow hpaths (List.cons_ne_nil "a.d.ts" [])
  exact (hlisted patterns hinclude "/lib/a.d.ts" (by decide) hleads).mpr
    ⟨by decide, ⟨_, hentry, hcomes⟩, by decide⟩

end Project

end ApiOutline
