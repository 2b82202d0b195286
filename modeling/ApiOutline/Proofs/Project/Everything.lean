import ApiOutline.Proofs.Disk.Everything
import ApiOutline.Proofs.Project.OutputFolders

/-!
# Walking or searching

Without lists a project has the sources that a walk below its root finds, and with `**/*` as its one
entry of `include` those that a search for everything finds. The walk does not go into folders
without sources of their own, and the search does and drops what lies in them. In a plain tree
without hidden folders both come to the same sources (`sources_of_everything`).

They differ in what stops them. Each has room for so many folders, one inside the other, and the
search fails for a folder that lies too deep or a path that is too long also where the walk would
not have come to it. The walk alone asks for the options of the compiler, which a strict project
must have as an object.
-/

namespace ApiOutline

open ApiOutline.Path (IsStep IsName Folder)

namespace Sources

variable {d : Disk} {entries : List (String × Item)} {start s : String}

/-- No folder among some entries is hidden. -/
def NoneHidden (entries : List (String × Item)) : Bool :=
  entries.all fun entry => !(entry.2.isFolder && Text.startsWith entry.1 ".")

/-- A source stands at a path, and no folder on the way to it goes by the name of one without
sources. -/
def StandsAt (start : String) (entries : List (String × Item)) (s : String) : Prop :=
  ∃ way name contents, (Item.folder entries).at? (way ++ [name]) = some (.file contents) ∧
    isSource name = true ∧ (∀ n ∈ way, n ∉ skippedFolders) ∧ s = Path.below start (way ++ [name])

private theorem startsWith_of_noneHidden (h : (Item.folder entries).everyFolder NoneHidden = true)
    {way : List String} {inner : List (String × Item)}
    (hat : (Item.folder entries).at? way = some (.folder inner)) :
    ∀ n ∈ way, Text.startsWith n "." = false := by
  induction way generalizing entries with
  | nil => simp
  | cons name rest ih =>
    obtain ⟨item, hlookup, hat⟩ := Option.bind_eq_some_iff.mp hat
    obtain ⟨hhere, hin⟩ := Item.everyFolder_folder_iff.mp h
    have hmem := Item.mem_of_lookup hlookup
    cases item with
    | folder below =>
      have hname := List.all_eq_true.mp hhere _ hmem
      refine List.forall_mem_cons.mpr ⟨by simpa [Item.isFolder] using hname, ?_⟩
      exact ih (Item.everyFolderIn_iff.mp hin _ hmem) hat
    | _ => cases rest <;> cases hat

private theorem passes_iff (h : (Item.folder entries).everyFolder NoneHidden = true)
    {way : List String} {inner : List (String × Item)}
    (hat : (Item.folder entries).at? way = some (.folder inner)) :
    Passes [] start way ↔ ∀ n ∈ way, n ∉ skippedFolders := by
  have hhidden := startsWith_of_noneHidden h hat
  constructor
  · intro hpasses n hn
    obtain ⟨above, rest, rfl⟩ := List.append_of_mem hn
    exact (hpasses above n ⟨rest, by simp⟩).2.1
  · intro hskipped above n hprefix
    have hn : n ∈ way := hprefix.subset (by simp)
    exact ⟨hhidden n hn, hskipped n hn, List.not_mem_nil⟩

/-- Where all can be gone through, all folders are seen into. -/
private theorem sees_of_fits {room : Nat} (hfits : Disk.Fits room start entries) {way : List String}
    {item : Item} (hat : (Item.folder entries).at? way = some item) : Sees start way := by
  rintro above name ⟨rest, rfl⟩
  rw [Item.at?_append] at hat
  obtain ⟨inner, hinner, -⟩ := Option.bind_eq_some_iff.mp hat
  exact hfits.short _ _ hinner

/-- Where nothing is left out and all can be gone through, a walk finds the sources that no folder
without sources is above. -/
private theorem reaches_iff_standsAt (hplain : (Item.folder entries).Plain)
    (hopen : (Item.folder entries).everyFolder NoneHidden = true) {room : Nat}
    (hfits : Disk.Fits room start entries) :
    Reaches d [] start entries s ↔ StandsAt start entries s := by
  constructor
  · rintro ⟨way, name, item, hat, hpasses, -, hs, htakes⟩
    obtain ⟨inner, habove, -⟩ := Item.exists_folder_of_at?_append hat
    cases item with
    | file contents =>
      exact ⟨way, name, contents, hat, htakes.source, (passes_iff hopen habove).mp hpasses, hs⟩
    | folder _ => cases htakes.no_folder
    | link _ => cases (hplain.of_at? hat).linkFree
  · rintro ⟨way, name, contents, hat, hsource, hskipped, hs⟩
    obtain ⟨inner, habove, -⟩ := Item.exists_folder_of_at?_append hat
    have htakes : Takes d name s (.file contents) := ⟨hsource, rfl, fun _ hlink => by cases hlink⟩
    exact ⟨way, name, _, hat, (passes_iff hopen habove).mpr hskipped, sees_of_fits hfits habove, hs,
      htakes⟩

/-- **A walk that leaves nothing out** returns the sources in order, where all can be gone through
and it has room for the folders that it goes into. -/
theorem discover_eq_ok {f : Folder} (hroot : d.find (f.path []) = .ok (.folder entries))
    (hplain : (Item.folder entries).Plain)
    (hopen : (Item.folder entries).everyFolder NoneHidden = true) {room : Nat}
    (hfits : Disk.Fits room (f.path []) entries)
    (hwalk : ∀ way, Enters [] (f.path []) entries way → way.length ≤ d.limits.walk)
    {paths : List String} (hsorted : paths.Pairwise Text.Before)
    (hmem : ∀ s, s ∈ paths ↔ StandsAt (f.path []) entries s) :
    (discover d (f.path []) []).result = .ok paths := by
  have hstart : d.absolute (f.path []) = f.path [] :=
    Folder.absolute_of_isName (List.forall_mem_nil _) d.cwd
  refine discover_eq_ok_iff.mpr ⟨entries, ?_, ?_, ?_⟩
  · rw [hstart, Disk.scan, hroot]
  · rw [hstart, List.map_nil]
    exact (depthIn_le_iff hplain.distinct).mpr hwalk
  · rw [hstart, List.map_nil]
    have hnodup : (foundIn d [] (f.path []) entries).Nodup :=
      nodup_foundIn f entries (List.forall_mem_nil _) hplain.wellNamed hplain.distinct
    -- both lists are sorted, so they are told apart by their members
    refine (Text.pairwise_before_mergeSort hnodup).eq_of_mem_iff hsorted fun s => ?_
    rw [List.mem_mergeSort, mem_foundIn_iff hplain.distinct,
      reaches_iff_standsAt hplain hopen hfits, hmem]

end Sources

namespace Project

variable {p : Project} {d : Disk} {config : Json.Fields} {paths : List String}

/-! ### Configurations -/

/-- The entry of `include` that asks for everything. -/
def everything : Json :=
  .str "**/*"

/-- A configuration has no lists of sources and names no output folders. -/
structure Silent (config : Json.Fields) : Prop where
  files : listSetting config "files" = none
  patterns : listSetting config "include" = none
  out : (optionsIn config).get? "outDir" = none
  declarations : (optionsIn config).get? "declarationDir" = none

/-- A configuration asks for everything by the one entry of `include`, and has no other lists. -/
structure AsksForAll (config : Json.Fields) : Prop where
  files : listSetting config "files" = none
  exclude : listSetting config "exclude" = none
  patterns : listSetting config "include" = some [everything]

instance (config : Json.Fields) : Decidable (Silent config) :=
  decidable_of_iff ((listSetting config "files").isNone ∧ (listSetting config "include").isNone ∧
    ((optionsIn config).get? "outDir").isNone ∧ ((optionsIn config).get? "declarationDir").isNone)
    (by
      simp only [Option.isNone_iff_eq_none]
      exact ⟨fun ⟨h, h', hout, hdeclarations⟩ => ⟨h, h', hout, hdeclarations⟩,
        fun h => ⟨h.files, h.patterns, h.out, h.declarations⟩⟩)

/-- Whether everything is asked for by the one entry of a list. -/
def isEverything : List Json → Bool
  | [.str text] => text == "**/*"
  | _ => false

private theorem isEverything_iff {patterns : List Json} :
    isEverything patterns = true ↔ patterns = [everything] := by
  refine ⟨fun h => ?_, fun h => h ▸ rfl⟩
  rw [isEverything.eq_def] at h
  split at h
  · rw [beq_iff_eq.mp h, everything]
  · cases h

instance (config : Json.Fields) : Decidable (AsksForAll config) :=
  decidable_of_iff ((listSetting config "files").isNone ∧ (listSetting config "exclude").isNone ∧
    (listSetting config "include").any isEverything)
    (by
      simp only [Option.isNone_iff_eq_none, Option.any_eq_true, isEverything_iff, exists_eq_right]
      exact ⟨fun ⟨h, h', hall⟩ => ⟨h, h', hall⟩, fun h => ⟨h.files, h.exclude, h.patterns⟩⟩)

/-! ### The options of the compiler -/

/-- The options can be had: they are an object, or none, or the project can do without. -/
def HasOptions (p : Project) (config : Json.Fields) : Prop :=
  p.strict = false ∨ (config.get? "compilerOptions").all Config.isObject = true

instance (p : Project) (config : Json.Fields) : Decidable (p.HasOptions config) :=
  inferInstanceAs (Decidable (_ ∨ _))

private theorem result_compilerOptions_of_hasOptions :
    (Config.compilerOptions config p.strict).result =
      if p.HasOptions config then .ok (optionsIn config) else .error (.config .badOptions) := by
  cases hstrict : p.strict with
  | false => rw [if_pos (.inl hstrict), result_compilerOptions]
  | true =>
    simp only [HasOptions, hstrict, Bool.true_eq_false, false_or, Config.compilerOptions, optionsIn]
    cases config.get? "compilerOptions" with
    | none => rfl
    | some value => cases value <;> rfl

private theorem result_optionFolder
    (hconfig : (Config.loadChain d p.compilerPath p.strict).result = .ok config) (name : String) :
    (p.optionFolder d name {}).2.result =
      (Config.compilerOptions config p.strict).result.map fun options =>
        p.folderIn options name := by
  have hoptions : Yields p d (p.options d) (Config.compilerOptions config p.strict).result :=
    (Yields.of_eq (yields_compiler p d) hconfig).bind_ok (.lift _)
  rw [optionFolder_eq]
  exact (hoptions.bind fun options _ => .pure _).result_eq

/-- Where the configuration is silent, a walk leaves nothing out, if the options can be had. -/
private theorem result_sources_of_silent
    (hconfig : (Config.loadChain d p.compilerPath p.strict).result = .ok config)
    (hsilent : Silent config) : (p.sources d {}).2.result =
      if p.HasOptions config then (Sources.discover d p.root []).result
      else .error (.config .badOptions) := by
  rw [result_sources_of_walk hconfig hsilent.files hsilent.patterns, walked, outDir,
    declarationDir, result_optionFolder hconfig, result_optionFolder hconfig,
    result_compilerOptions_of_hasOptions]
  split
  · simp only [Except.map, folderIn, hsilent.out, hsilent.declarations]
    dsimp only [Bind.bind, Except.bind, Option.toList, List.nil_append]
  · dsimp only [Except.map, Bind.bind, Except.bind]

/-! ### Everything as an entry of `include` -/

private theorem expandInclude_everything (p : Project) (d : Disk) :
    Sources.expandInclude d p.root everything.text = "**/*" := by
  have htrimmed : Text.trimEnd everything.text '/' = "**/*" := by decide
  have hmark : Wildcard.hasMark "**/*" = true := by decide
  rw [Sources.expandInclude, htrimmed, hmark]
  rfl

/-- The pattern of everything has two segments. -/
private theorem searches_everything_iff : p.Searches d everything ↔
    2 ≤ d.limits.segments ∧ ∃ found, d.glob p.root Disk.everything = .ok found := by
  have hparts : Pattern.parts "**/*" = ["**", "*"] := by decide
  constructor
  · rintro ⟨hacceptable, hfound⟩
    rw [expandInclude_everything] at hacceptable hfound
    have hfew := hacceptable.few_parts
    rw [hparts] at hfew
    exact ⟨hfew, hfound _ (Disk.read_everything hfew)⟩
  · rintro ⟨hfew, hfound⟩
    have hread := Disk.read_everything hfew
    refine ⟨?_, fun pattern hpattern => ?_⟩
    · rw [expandInclude_everything]
      exact Pattern.exists_read_iff.mp ⟨_, hread⟩
    · rw [expandInclude_everything] at hpattern
      exact Except.ok.inj (hread.symm.trans hpattern) ▸ hfound

section Tree

variable {f : Folder} {entries : List (String × Item)} (hroot : p.root = f.path [])
  (hfolder : d.find p.root = .ok (.folder entries)) (hplain : (Item.folder entries).Plain)

include hroot hfolder hplain

/-- Everything can be enumerated exactly where a pattern may have two segments and all below the
root can be gone through. -/
private theorem exists_enumerates_everything_iff :
    (∃ paths, p.Enumerates d [] [everything] [] paths) ↔
    2 ≤ d.limits.segments ∧ Disk.Fits d.limits.search p.root entries := by
  rw [exists_enumerates_iff, List.forall_mem_singleton, searches_everything_iff, hroot]
  exact and_congr_right fun _ => Disk.exists_glob_everything_iff (hroot ▸ hfolder) hplain

/-- Where everything can be enumerated, the search for it comes upon all files. -/
private theorem comesUpon_everything_iff (h : p.Enumerates d [] [everything] [] paths)
    {s : String} :
    p.ComesUpon d everything s ↔ ∃ way contents,
      (Item.folder entries).at? way = some (.file contents) ∧ s = Path.below p.root way := by
  obtain ⟨hfew, found, hfound⟩ := searches_everything_iff.mp
    (List.forall_mem_singleton.mp (exists_enumerates_iff.mp ⟨paths, h⟩))
  have hread : Pattern.read d.limits.segments
      (Sources.expandInclude d p.root everything.text) = .ok Disk.everything := by
    rw [expandInclude_everything]
    exact Disk.read_everything hfew
  have hcomes : p.ComesUpon d everything s ↔ s ∈ found := by
    constructor
    · rintro ⟨pattern, hpattern, found', hfound', hs⟩
      obtain rfl := Except.ok.inj (hpattern.symm.trans hread)
      exact Except.ok.inj (hfound'.symm.trans hfound) ▸ hs
    · exact fun hs => ⟨_, hread, found, hfound, hs⟩
  rw [hroot] at hfound hfolder ⊢
  exact hcomes.trans (Disk.mem_glob_everything_iff hfolder hplain hfound)

/-- Whether a file is enumerated is told by the names on the way to it. -/
private theorem Enumerates.below_mem_iff (h : p.Enumerates d [] [everything] [] paths)
    {way : List String} {name : String} {contents : File}
    (hat : (Item.folder entries).at? (way ++ [name]) = some (.file contents)) :
    Path.below p.root (way ++ [name]) ∈ paths ↔
      Sources.isSource name = true ∧ ∀ n ∈ way, n ∉ Sources.skippedFolders := by
  have hnames := Item.isName_of_at? hplain.wellNamed hat
  have habs : Path.isAbsolute (Path.below p.root (way ++ [name])) = true := by
    rw [hroot, Disk.below_path_of_at? hplain hat]
    exact f.isAbsolute_path _
  have hsource : Sources.isSource (Path.below p.root (way ++ [name])) = Sources.isSource name := by
    rw [Path.below, List.foldl_append]
    exact Sources.isSource_join (hnames name (by simp)).no_slash _
  have hcomes : p.ComesUpon d everything (Path.below p.root (way ++ [name])) :=
    (comesUpon_everything_iff hroot hfolder hplain h).mpr ⟨_, contents, hat, rfl⟩
  rw [h.mem_iff_of_leadsTo hroot habs (by simp) (leadsTo_below hroot hnames), hsource,
    List.dropLast_concat]
  exact and_congr_right fun _ => and_iff_right ⟨everything, List.mem_singleton_self _, hcomes⟩

/-- What is enumerated are the sources that no folder without sources is above. -/
private theorem Enumerates.mem_everything_iff (h : p.Enumerates d [] [everything] [] paths)
    {s : String} :
    s ∈ paths ↔ Sources.StandsAt p.root entries s := by
  constructor
  · intro hs
    obtain ⟨-, hnamed | ⟨⟨_, hself, hcomes⟩, -⟩⟩ := h.mem_iff.mp hs
    · exact absurd hnamed not_named_nil
    obtain rfl := List.mem_singleton.mp hself
    obtain ⟨way, contents, hat, rfl⟩ :=
      (comesUpon_everything_iff hroot hfolder hplain h).mp hcomes
    have hne : way ≠ [] := by
      rintro rfl
      cases hat
    obtain ⟨above, name, rfl⟩ := List.eq_nil_or_concat' way |>.resolve_left hne
    obtain ⟨hsource, hskipped⟩ := (h.below_mem_iff hroot hfolder hplain hat).mp hs
    exact ⟨above, name, contents, hat, hsource, hskipped, rfl⟩
  · rintro ⟨way, name, contents, hat, hsource, hskipped, rfl⟩
    exact (h.below_mem_iff hroot hfolder hplain hat).mpr ⟨hsource, hskipped⟩

end Tree

/-- **Walking or searching.** On two disks that differ in what their files hold only, in a plain
tree without hidden folders: a project that includes everything has sources exactly where a pattern
may have two segments and all below its root can be gone through. A project without lists and output
folders then has the same if the walk has room for the folders it goes into, unless it is strict
about options that are no object. -/
theorem sources_of_everything {d' : Disk} {config' : Json.Fields} {entries : List (String × Item)}
    (hcwd : Path.isAbsolute d.cwd = true) (hp : p.OpenOn d)
    (hfolder : d.find p.root = .ok (.folder entries)) (hplain : (Item.folder entries).Plain)
    (hopen : (Item.folder entries).everyFolder Sources.NoneHidden = true)
    (hd : d'.emptied = d.emptied)
    (hconfig : (Config.loadChain d p.compilerPath p.strict).result = .ok config)
    (hsilent : Silent config)
    (hconfig' : (Config.loadChain d' p.compilerPath p.strict).result = .ok config')
    (hall : AsksForAll config') :
    ((∃ paths, (p.sources d' {}).2.result = .ok paths) ↔
      2 ≤ d.limits.segments ∧ Disk.Fits d.limits.search p.root entries) ∧
    ∀ paths, (p.sources d' {}).2.result = .ok paths →
      (∀ way, Sources.Enters [] p.root entries way → way.length ≤ d.limits.walk) →
      (p.sources d {}).2.result =
        if p.HasOptions config then .ok paths else .error (.config .badOptions) := by
  obtain ⟨f, hroot⟩ := hp.exists_folder hcwd
  -- what the second disk answers is enumerated on the first
  have hsearch (paths : List String) : (p.sources d' {}).2.result = .ok paths ↔
      p.Enumerates d [] [everything] [] paths :=
    enumerates_of_include hd hconfig' hall.files hall.exclude hall.patterns
  have hfits := exists_enumerates_everything_iff hroot hfolder hplain
  simp only [hsearch]
  refine ⟨hfits, fun paths h hroom => ?_⟩
  have hmem (s : String) := h.mem_everything_iff hroot hfolder hplain (s := s)
  have hwalk : (Sources.discover d p.root []).result = .ok paths := by
    have hfits' := (hfits.mp ⟨paths, h⟩).2
    rw [hroot] at hfolder hfits' hmem hroom ⊢
    exact Sources.discover_eq_ok hfolder hplain hopen hfits' hroom h.pairwise_before hmem
  rw [result_sources_of_silent hconfig hsilent, hwalk]

/-! ### A package -/

/-- A package with a hidden file, a folder under the name of a source, and folders without sources
of their own on two levels. -/
def branching (config : String) : Disk where
  entries := [
    (".x.ts", .file ⟨[], none, none⟩),
    ("a.ts", .folder [("b.ts", .file ⟨[], none, none⟩)]),
    ("dist", .folder [("c.ts", .file ⟨[], none, none⟩)]),
    ("src", .folder [
      ("e.ts", .file ⟨[], none, none⟩),
      ("node_modules", .folder [("f.ts", .file ⟨[], none, none⟩)])]),
    ("tsconfig.json", .file ⟨Utf8.encode config, none, none⟩)]
  cwd := "/"
  limits := .uniform 8

/-- The package at the root of its disk, where problems with its configuration stop the work. -/
def strictAtTop : Project :=
  ⟨"/", true⟩

private theorem emptied_branching (config config' : String) :
    (branching config).emptied = (branching config').emptied := rfl

/-- What a search for everything finds in the package, if it is configured to. -/
private theorem sources_branching {config : String} {fields : Json.Fields}
    (hconfig : (Config.loadChain (branching config) strictAtTop.compilerPath
      strictAtTop.strict).result = .ok fields) (hall : AsksForAll fields) :
    (strictAtTop.sources (branching config) {}).2.result =
      .ok ["/.x.ts", "/a.ts/b.ts", "/src/e.ts"] := by
  have hfound : ∃ found, (gather (strictAtTop.includeEntry (branching "")
      (([] : List Json).map Json.text)) [everything]).result = .ok found ∧
        found = ["/.x.ts", "/tsconfig.json", "/a.ts/b.ts", "/src/e.ts"] := by decide +kernel
  refine (enumerates_of_include (emptied_branching config "") hconfig hall.files hall.exclude
    hall.patterns).mpr ?_
  exact enumerates_of_gather (by decide +kernel)
    ⟨[], rfl, _, Except.eq_ok_of_exists hfound, by decide +kernel⟩

/-- In the package a walk comes to the same. -/
theorem sources_of_everything_branching :
    Disk.Fits 8 "/" (branching "\x7b\x7d").entries ∧
    (strictAtTop.sources (branching "\x7b\x7d") {}).2.result =
      .ok ["/.x.ts", "/a.ts/b.ts", "/src/e.ts"] := by
  have hwalking : ∃ fields, (Config.loadChain (branching "\x7b\x7d") strictAtTop.compilerPath
      strictAtTop.strict).result = .ok fields ∧ Silent fields ∧ strictAtTop.HasOptions fields := by
    decide +kernel
  have hsearching : ∃ fields, (Config.loadChain (branching "\x7b\"include\":[\"**/*\"]\x7d")
      strictAtTop.compilerPath strictAtTop.strict).result = .ok fields ∧ AsksForAll fields := by
    decide +kernel
  obtain ⟨config, hconfig, hsilent, hoptions⟩ := hwalking
  obtain ⟨config', hconfig', hall⟩ := hsearching
  have hpaths := sources_branching hconfig' hall
  have hplain : (Item.folder (branching "\x7b\x7d").entries).Plain :=
    ⟨by decide +kernel, by decide +kernel, by decide +kernel, by decide +kernel⟩
  have hopen : strictAtTop.OpenOn (branching "\x7b\x7d") := openOn_of_cwd rfl true
  have hfolder : (branching "\x7b\x7d").find strictAtTop.root =
      .ok (.folder (branching "\x7b\x7d").entries) := Sources.find_root _ _
  have hnone : (Item.folder (branching "\x7b\x7d").entries).everyFolder Sources.NoneHidden =
      true := by decide +kernel
  have hroom : Sources.depthIn [] strictAtTop.root (branching "\x7b\x7d").entries ≤ 8 := by
    decide +kernel
  obtain ⟨hfits, hwalk⟩ := sources_of_everything (by decide) hopen hfolder hplain hnone
    (emptied_branching _ _) hconfig hsilent hconfig' hall
  have hsources := hwalk _ hpaths ((Sources.depthIn_le_iff hplain.distinct).mp hroom)
  exact ⟨(hfits.mp ⟨_, hpaths⟩).2, hsources.trans (if_pos hoptions)⟩

/-! ### What stops a search or a walk alone -/

/-- Folders of one name, one inside the other. -/
def tower (name : String) : Nat → List (String × Item)
  | 0 => []
  | n + 1 => [(name, .folder (tower name n))]

/-- A package without sources, in which there are such folders below one of build results. They do
not lie too deep. -/
def buried (name : String) (n : Nat) (config : String) : Disk where
  entries := [
    ("dist", .folder (tower name n)),
    ("tsconfig.json", .file ⟨Utf8.encode config, none, none⟩)]
  cwd := "/"
  limits := .uniform (n + 8)

section Buried

variable {name : String} (hname : IsName name)

include hname

private theorem plain_buried (hkeeps : Disk.Keeps name) (n : Nat) (config : String) :
    (Item.folder (buried name n config).entries).Plain := by
  have htower : (Item.folder (tower name n)).Plain := by
    induction n with
    | zero => exact .nil
    | succ n ih => exact .cons hname hkeeps List.not_mem_nil ih .nil
  have hconfig : (Item.folder [("tsconfig.json", .file ⟨Utf8.encode config, none, none⟩)]).Plain :=
    .cons (by decide) (by decide +kernel) List.not_mem_nil (.file _) .nil
  exact .cons (by decide) (by decide +kernel) (by simp) htower hconfig

omit hname in
/-- The way down to the innermost folder. -/
private theorem at?_buried (name : String) (n : Nat) (config : String) :
    (Item.folder (buried name n config).entries).at? ("dist" :: List.replicate n name) =
      some (.folder []) := by
  have htower : (Item.folder (tower name n)).at? (List.replicate n name) = some (.folder []) := by
    induction n with
    | zero => rfl
    | succ n ih =>
      rw [tower, List.replicate_succ, Sources.at?_cons_of_lookup List.lookup_cons_self, ih]
  rw [buried, Sources.at?_cons_of_lookup List.lookup_cons_self, htower]

/-- The path of the innermost folder is as long as its names are. -/
private theorem le_byteSize_buried (n : Nat) : n * (Disk.byteSize name + 1) ≤
    Disk.byteSize (Path.below "/" ("dist" :: List.replicate n name)) := by
  have hdist : IsName "dist" := by decide
  have hsteps : ∀ s ∈ "dist" :: List.replicate n name, IsStep s :=
    List.forall_mem_cons.mpr
      ⟨hdist.toIsStep, fun s hs => List.eq_of_mem_replicate hs ▸ hname.toIsStep⟩
  have hsum := Sources.sum_le_byteSize_below hsteps
  rw [List.map_cons, List.sum_cons, List.map_replicate, List.sum_replicate_nat] at hsum
  omega

/-- Where a path is too long a search for everything has nothing to return, and a walk that does not
come to it has. -/
private theorem sources_buried (hkeeps : Disk.Keeps name) {n : Nat}
    (hlong : Disk.maxPath < n * (Disk.byteSize name + 1)) {config config' : String}
    (hconfig : ∃ fields, (Config.loadChain (buried name n config) atTop.compilerPath
      atTop.strict).result = .ok fields ∧ Silent fields ∧ atTop.HasOptions fields)
    (hconfig' : ∃ fields, (Config.loadChain (buried name n config') atTop.compilerPath
      atTop.strict).result = .ok fields ∧ AsksForAll fields) :
    (atTop.sources (buried name n config) {}).2.result = .ok [] ∧
      ∀ paths, (atTop.sources (buried name n config') {}).2.result ≠ .ok paths := by
  obtain ⟨fields, hconfig, hsilent, hoptions⟩ := hconfig
  obtain ⟨fields', hconfig', hall⟩ := hconfig'
  constructor
  · have hstart : (buried name n config).absolute atTop.root = "/" := by
      have habsolute : Path.absolute "/" "/" = "/" := by decide +kernel
      exact habsolute
    have henters (q : String) : Sources.enters [] "dist" q = false := by
      have hskipped : Sources.skippedFolders.contains "dist" = true := by decide
      rw [Sources.enters, hskipped, Bool.not_true, Bool.and_false, Bool.false_and]
    have hconfigFile : Sources.isSource "tsconfig.json" = false := by decide
    rw [result_sources_of_silent hconfig hsilent, if_pos hoptions]
    refine Sources.discover_eq_ok_iff.mpr ⟨(buried name n config).entries, ?_, ?_, ?_⟩
    · rw [hstart]
      exact Sources.scan_root _ _
    · simp [buried, Sources.depthIn, Sources.depth, henters]
    · simp [buried, Sources.foundIn, Sources.found, henters, hconfigFile, Sources.sorted]
  · intro paths hpaths
    let f : Folder := ⟨"/", [], .inl rfl, List.forall_mem_nil _⟩
    have hroot : atTop.root = f.path [] := by decide
    have hfolder : (buried name n config').find atTop.root =
        .ok (.folder (buried name n config').entries) := Sources.find_root _ _
    have hlisted := (enumerates_of_include rfl hconfig' hall.files hall.exclude hall.patterns).mp
      hpaths
    have hfits := ((exists_enumerates_everything_iff hroot hfolder
      (plain_buried hname hkeeps n config')).mp ⟨paths, hlisted⟩).2
    have hshort := hfits.short _ _ (at?_buried name n config')
    exact absurd (hlong.trans_le ((le_byteSize_buried hname n).trans hshort)) (lt_irrefl _)

end Buried

/-- A long name. -/
def longName : String :=
  String.ofList (List.replicate 200 'a')

/-- **They do not always come to the same.** A strict project must have options for a walk and not
for a search, and a search fails for a path that is too long where a walk would not come to it. -/
theorem walking_or_searching :
    ((Item.folder (branching "").entries).linkFree = true ∧
      (Item.folder (branching "").entries).everyFolder Sources.NoneHidden = true ∧
      (strictAtTop.sources (branching "\x7b\"compilerOptions\":[]\x7d") {}).2.result =
        .error (.config .badOptions) ∧
      (strictAtTop.sources (branching
        "\x7b\"compilerOptions\":[],\"include\":[\"**/*\"]\x7d") {}).2.result =
        .ok ["/.x.ts", "/a.ts/b.ts", "/src/e.ts"]) ∧
    (atTop.sources (buried longName 21 "\x7b\x7d") {}).2.result = .ok [] ∧
      ∀ paths, (atTop.sources (buried longName 21
        "\x7b\"include\":[\"**/*\"]\x7d") {}).2.result ≠ .ok paths := by
  have hwalking : ∃ fields, (Config.loadChain (branching "\x7b\"compilerOptions\":[]\x7d")
      strictAtTop.compilerPath strictAtTop.strict).result = .ok fields ∧ Silent fields ∧
        ¬strictAtTop.HasOptions fields := by decide +kernel
  have hsearching : ∃ fields, (Config.loadChain (branching
      "\x7b\"compilerOptions\":[],\"include\":[\"**/*\"]\x7d")
      strictAtTop.compilerPath strictAtTop.strict).result = .ok fields ∧ AsksForAll fields := by
    decide +kernel
  obtain ⟨fields, hconfig, hsilent, hoptions⟩ := hwalking
  obtain ⟨fields', hconfig', hall⟩ := hsearching
  have hstrict : (strictAtTop.sources (branching "\x7b\"compilerOptions\":[]\x7d") {}).2.result =
      .error (.config .badOptions) :=
    (result_sources_of_silent hconfig hsilent).trans (if_neg hoptions)
  have hlong : Disk.maxPath < 21 * (Disk.byteSize longName + 1) := by decide +kernel
  refine ⟨⟨by decide +kernel, by decide +kernel, hstrict, sources_branching hconfig' hall⟩, ?_⟩
  exact sources_buried (by decide +kernel) (by decide +kernel) hlong (by decide +kernel)
    (by decide +kernel)

end Project

end ApiOutline
