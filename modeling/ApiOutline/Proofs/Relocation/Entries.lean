import ApiOutline.Proofs.Relocation.Project
import ApiOutline.Proofs.Relocation.Trees

/-!
# Entries of copies

What is generated for a source lies at the same place in a copy of the package, so an entry has the
same name and the same files, seen from its package, and the main module of a package does not
depend on where the package lies (`alike_mainModuleEntry`).

This is so for a package that is `Movable`. If the entry point is the package folder itself, the
extension of that folder decides whether `.js` or `index.js` may be added; an entry of `extends`
that is the folder itself makes the loader look for a file beside it; and what is generated for a
source outside the root of the layout may come out of the package and into it again by its name.
-/

namespace ApiOutline

open ApiOutline.Path (IsStep IsName Folder Inside within? goal?)

namespace Project

variable {d d' : Disk} {f f' : Folder} {strict : Bool}

/-! ### Compiled files -/

/-- **A generated file** has the same place below the folders, if its way stays inside. -/
theorem samePlace_generated {init : List String} (hinit : Inside init) {stem e : String}
    (hstem : IsName stem) (he : e ∈ generatedExtensions) {way : List String}
    (hsteps : ∀ s ∈ way, IsStep s) {folder folder' : Option String}
    (hfolder : Option.Rel (SamePlace f f') folder folder')
    (hway : ∀ names, (∀ n ∈ names, IsName n) → folder = some (f.path names) →
      (goal? names (Folder.wayText way ++ e)).isSome = true) :
    SamePlace f f' (generated folder (f.path (init ++ [stem])) (Folder.wayText way) e)
      (generated folder' (f'.path (init ++ [stem])) (Folder.wayText way) e) := by
  have hfile := isName_append_generated hstem he
  cases hfolder with
  | none =>
    obtain ⟨names, hnames, hall⟩ := hinit.exists_names
    have hwithin : within? [] (init ++ [stem ++ e]) = some (names ++ [stem ++ e]) := by
      rw [Path.within?_append, hnames, Option.bind_some, Path.within?_singleton hfile]
    have hbeside (f : Folder) (text : String) :
        generated none (f.path (init ++ [stem])) text e = f.path (names ++ [stem ++ e]) := by
      rw [generated, Option.elim_none, f.path_append_last,
        Folder.normalize_path (hinit.append_name hfile).isStep hwithin]
    have hnames := List.forall_mem_append.mpr ⟨hall, List.forall_mem_singleton.mpr hfile⟩
    exact ⟨_, hnames, hbeside f _, hbeside f' _⟩
  | some hplace =>
    obtain ⟨names, hnames, rfl, rfl⟩ := hplace
    obtain ⟨goal, hgoal⟩ := Option.isSome_iff_exists.mp (hway names hnames rfl)
    obtain ⟨hrel, hne⟩ := Folder.isAbsolute_wayText hsteps
    have hbelow (f : Folder) (base : String) :
        generated (some (f.path names)) base (Folder.wayText way) e = f.path goal := by
      rw [generated, Option.elim_some, ← Path.join_append hrel hne, f.normalize_join hnames hgoal]
    exact ⟨goal, Path.isName_of_goal? hnames hgoal, hbelow f _, hbelow f' _⟩

/-- An option that holds no path is the same. -/
private theorem get?_eq_of_match {options options' : Json.Fields}
    (h : Json.Fields.Match (Config.OptionMatch f f') options options') (name : String)
    (hname : name ∉ Config.pathOptions) : options'.get? name = options.get? name := by
  have hget := h.get name
  generalize options.get? name = value at hget
  generalize options'.get? name = value' at hget
  cases hget with
  | none => rfl
  | some hvalue =>
    cases hvalue with
    | same => rfl
    | path hmem => exact absurd hmem hname

private theorem samePlace_orElse {first first' second second' : Option String}
    (h : Option.Rel (SamePlace f f') first first')
    (hsecond : Option.Rel (SamePlace f f') second second') :
    Option.Rel (SamePlace f f') (first <|> second) (first' <|> second') := by
  cases h with
  | none => exact hsecond
  | some h => exact .some h

/-- The way from the root of the layout to a source without its extension is the same. -/
private theorem exists_relative_base {layout layout' : String} {names steps : List String}
    (hsteps : Inside steps) (hleft : Path.names (d.absolute layout) = f.names ++ names)
    (hright : Path.names (d'.absolute layout') = f'.names ++ names) :
    ∃ way, (∀ s ∈ way, IsStep s) ∧ d.relative (f.path steps) layout = .ok (Folder.wayText way) ∧
      d'.relative (f'.path steps) layout' = .ok (Folder.wayText way) := by
  obtain ⟨goal, hgoal, hnames⟩ := hsteps.exists_names
  refine ⟨Path.wayBetween names goal,
    Folder.isStep_wayBetween fun s hs => (hnames s hs).toIsStep, ?_, ?_⟩
  · exact Folder.relative_of_names (Path.ne_empty_of_isAbsolute (f.isAbsolute_path steps)) hleft
      (Folder.names_absolute_path hsteps.isStep hgoal d.cwd)
  · exact Folder.relative_of_names (Path.ne_empty_of_isAbsolute (f'.isAbsolute_path steps)) hright
      (Folder.names_absolute_path hsteps.isStep hgoal d'.cwd)

/-! ### Modules, entries and entry points -/

private theorem alike_loadModule (h : d.Copies f d' f') {names : List String}
    (hnames : ∀ n ∈ names, IsName n) :
    Alike Failure.IsTooLong (fun m m' => m.path = f.path names ∧ m'.path = f'.path names)
      (loadModule d (f.path names)).result (loadModule d' (f'.path names)).result := by
  rw [result_loadModule, result_loadModule]
  have hread : Alike Failure.IsTooLong Eq ((d.read (f.path names)).mapError .disk)
      ((d'.read (f'.path names)).mapError .disk) :=
    (h.alike_read (.of_isName hnames)).mapError fun _ hlate => hlate
  exact hread.map fun _ _ _ => ⟨rfl, rfl⟩

/-- Two entries have the same name, and the same files seen from their packages. -/
def SameEntry (d d' : Disk) (e e' : ModuleEntry) : Prop :=
  e.name d = e'.name d' ∧
    e.outputs.map (d.relative · e.root) = e'.outputs.map (d'.relative · e'.root)

/-- The places of files are the same seen from the folders. -/
private theorem relative_samePlace {files files' : List String}
    (h : List.Forall₂ (SamePlace f f') files files') :
    files.map (d.relative · (f.path [])) = files'.map (d'.relative · (f'.path [])) := by
  induction h with
  | nil => rw [List.map_nil, List.map_nil]
  | cons hfile _ ih =>
    obtain ⟨way, hway, rfl, rfl⟩ := hfile
    have hsteps : ∀ s ∈ way, IsStep s := fun s hs => (hway s hs).toIsStep
    have hwithin : within? [] way = some way := Path.within?_of_isName hway []
    rw [List.map_cons, List.map_cons, ih, Disk.relative, Disk.relative,
      Folder.relative_path hsteps hwithin, Folder.relative_path hsteps hwithin]

/-- The files that can be the entry point are told by the way to it, unless it is the package
folder itself. -/
private theorem exists_mainCandidates {goal : List String} (hne : goal ≠ [])
    (h : ∀ n ∈ goal, IsName n) :
    ∃ ways : List (List String), (∀ way ∈ ways, ∀ n ∈ way, IsName n) ∧
      ∀ f : Folder, mainCandidates (f.path goal) = ways.map f.path := by
  obtain rfl | ⟨init, last, rfl⟩ := List.eq_nil_or_concat' goal
  · exact absurd rfl hne
  obtain ⟨hinit, hlast⟩ := List.forall_mem_append.mp h
  have hlast : IsName last := hlast last (List.mem_singleton_self last)
  have hindex : IsName "index.js" := by decide
  have hscript : IsName (last ++ ".js") := Path.isName_append hlast (by decide) (by decide)
  refine ⟨if Path.extension last = "" then
    [init ++ [last], init ++ [last ++ ".js"], init ++ [last] ++ ["index.js"]]
    else [init ++ [last]], ?_, fun f => ?_⟩
  · have hnames {n : String} (hn : IsName n) : ∀ m ∈ init ++ [n], IsName m :=
      List.forall_mem_append.mpr ⟨hinit, by simpa using hn⟩
    split_ifs
    · simp only [List.forall_mem_cons]
      exact ⟨h, hnames hscript, List.forall_mem_append.mpr ⟨h, by simpa using hindex⟩, by simp⟩
    · exact List.forall_mem_singleton.mpr h
  · rw [mainCandidates, f.extension_path init hlast.no_slash, f.path_append_last,
      Folder.join_path (fun s hs => (h s hs).toIsStep) hindex.toIsStep]
    split_ifs <;> rfl

/-- Whether one of some files is among the files that can be the entry point. -/
private theorem any_contains_samePlace {candidates : List (List String)}
    (hcandidates : ∀ way ∈ candidates, ∀ n ∈ way, IsName n) {files files' : List String}
    (h : List.Forall₂ (SamePlace f f') files files') :
    files.any (candidates.map f.path).contains = files'.any (candidates.map f'.path).contains := by
  have hsteps : ∀ way ∈ candidates, ∀ s ∈ way, IsStep s := fun way hway s hs =>
    (hcandidates way hway s hs).toIsStep
  induction h with
  | nil => rfl
  | cons hfile _ ih =>
    obtain ⟨way, hway, rfl, rfl⟩ := hfile
    have hcontains (f : Folder) : (candidates.map f.path).contains (f.path way) =
        candidates.contains way :=
      Folder.contains_map_path hsteps fun s hs => (hway s hs).toIsStep
    rw [List.any_cons, List.any_cons, ih, hcontains f, hcontains f']

/-! ### Movable packages -/

section

variable (h : d.Copies f d' f') (hd : d.WellNamed) (hp : Movable f strict d)
  (hshort' : ShortIncludes f strict d f' d')

include h hd hp hshort'

/-- **The files that are generated for a source** have the same places. -/
theorem likewise_outputs {paths : List String}
    (hpaths : ((inFolder f strict).sources d {}).2.result = .ok paths) {way : List String}
    (hway : Inside way) (hne : way ≠ []) (hmem : f.path way ∈ paths) :
    Likewise (inFolder f strict) d (inFolder f' strict) d' (List.Forall₂ (SamePlace f f'))
      ((inFolder f strict).outputs d (f.path way))
      ((inFolder f' strict).outputs d' (f'.path way)) := by
  obtain rfl | ⟨init, last, rfl⟩ := List.eq_nil_or_concat' way
  · exact absurd rfl hne
  have hinit := hway.of_append
  have hlast := hway.isStep last (by simp)
  have hext (f : Folder) :
      (Path.splitExtension (f.path (init ++ [last]))).2 = Path.extension last :=
    f.extension_path init hlast.no_slash
  rw [outputs, outputs, isDeclaration_path hne f' f]
  split_ifs with hdeclaration
  · exact .pure .nil
  dsimp only
  rw [hext f, hext f']
  cases hlookup : Sources.compiledExtensions.lookup (Path.extension last) with
  | none => exact .pure .nil
  | some compiled =>
    dsimp only
    have hnonempty : Path.extension last ≠ "" := by
      intro hempty
      rw [hempty] at hlookup
      cases hlookup
    obtain ⟨stem, hstem, -, hbase⟩ := Folder.exists_stem_path hlast.no_slash hnonempty
    refine (likewise_options h hp).bind fun options options' hoptions => ?_
    -- whether JSX is kept is an option without a path, so the program's extension is the same
    rw [get?_eq_of_match hoptions "jsx" (by decide)]
    generalize hprogram : @ite _ (_ = true) (instDecidableEqBool _ _) ".jsx" compiled = ext
    have hgenerated : ext ∈ generatedExtensions := by
      refine List.mem_append_left _ ?_
      rw [← hprogram]
      split_ifs
      · decide
      · exact mem_programExtensions_of_lookup hlookup
    have hother := List.mem_append_right programExtensions (declarationExtension_mem ext)
    refine (likewise_rootDir h hd hp hshort').bind fun layout layout' hlayout => ?_
    obtain ⟨⟨names, hleft, hright⟩, hrootDir⟩ := hlayout
    obtain ⟨up, hup, hrelative, hrelative'⟩ :=
      exists_relative_base (hinit.append_name hstem) hleft hright
    -- what is generated in a folder stays inside
    have hplaced := hp.placed hpaths hrootDir _ hmem (Bool.not_eq_true _ ▸ hdeclaration) _
      (hbase f init ▸ hrelative)
    rw [hbase f, hbase f', hrelative, hrelative']
    refine (Likewise.lift (V := fun text text' => text = Folder.wayText up ∧
      text' = Folder.wayText up) (.ok ⟨rfl, rfl⟩)).bind fun _ _ htext => ?_
    obtain ⟨rfl, rfl⟩ := htext
    refine (likewise_optionFolder h hp (by decide)).bind fun out out' hout => ?_
    obtain ⟨hout, houtDir⟩ := hout
    have hinOut (names : List String) (hnames : ∀ n ∈ names, IsName n)
        (hfolder : out = some (f.path names)) :=
      hplaced "outDir" (by decide) names hnames (hfolder ▸ houtDir)
    rw [get?_eq_of_match hoptions "declaration" (by decide),
      get?_eq_of_match hoptions "composite" (by decide)]
    have hfile := samePlace_generated hinit hstem hgenerated hup hout
      fun names hnames hfolder => hinOut names hnames hfolder ext hgenerated
    split_ifs
    · refine (likewise_optionFolder h hp (by decide)).bind
        fun declarations declarations' hdeclarations => .pure (.cons hfile (.cons ?_ .nil))
      obtain ⟨hdeclarations, hdeclarationDir⟩ := hdeclarations
      refine samePlace_generated hinit hstem hother hup (samePlace_orElse hdeclarations hout)
        fun names hnames hfolder => ?_
      cases declarations with
      | none => exact hinOut names hnames hfolder _ hother
      | some folder =>
        exact hplaced "declarationDir" (by decide) names hnames (hfolder ▸ hdeclarationDir) _ hother
    · exact .pure (.cons hfile .nil)

/-- **A module** is found at the same place, and is a source there. -/
theorem likewise_module {paths : List String}
    (hpaths : ((inFolder f strict).sources d {}).2.result = .ok paths) {way : List String}
    (hway : Inside way) :
    Likewise (inFolder f strict) d (inFolder f' strict) d'
      (Option.Rel fun m m' => ∃ names, (∀ n ∈ names, IsName n) ∧ names ≠ [] ∧
        f.path names ∈ paths ∧ m.path = f.path names ∧ m'.path = f'.path names)
      ((inFolder f strict).module d (f.path way))
      ((inFolder f' strict).module d' (f'.path way)) := by
  obtain ⟨names, hwithin, hnames⟩ := hway.exists_names
  have hfull (f : Folder) : Path.normalize (Path.join (inFolder f strict).root (f.path way)) =
      f.path names := by
    rw [Path.join_of_isAbsolute (f.isAbsolute_path way), Folder.normalize_path hway.isStep hwithin]
  rw [module_eq, module_eq, hfull f, hfull f']
  refine (likewise_sources h hd hp hshort').bind fun found found' hfound => ?_
  obtain ⟨⟨ways, hways, rfl, rfl⟩, hsources⟩ := hfound
  obtain rfl := Except.ok.inj (hsources.symm.trans hpaths)
  have hcontains (f : Folder) : (ways.map f.path).contains (f.path names) = ways.contains names :=
    Folder.contains_map_path (fun way hway => (hways way hway).1.isStep)
      fun s hs => (hnames s hs).toIsStep
  rw [moduleAmong, moduleAmong, hcontains f, hcontains f']
  split_ifs with hmem
  · have hmem := List.contains_iff_mem.mp hmem
    have hloaded : Alike Failure.IsTooLong
        (fun m m' => m.path = f.path names ∧ m'.path = f'.path names)
        (cachedModule d (f.path names) {}).2.result
        (cachedModule d' (f'.path names) {}).2.result := by
      have hseen (f : Folder) (d : Disk) : d.absolute (f.path names) = f.path names :=
        Folder.absolute_of_isName hnames d.cwd
      rw [result_cachedModule, result_cachedModule, hseen f d, hseen f' d']
      exact alike_loadModule h hnames
    refine (Likewise.of_transparent (transparent_cachedModule _ d _)
      (transparent_cachedModule _ d' _) hloaded).bind fun m m' hm => .pure (.some ?_)
    exact ⟨names, hnames, (hways names hmem).2, List.mem_map_of_mem hmem, hm.1⟩
  · exact (Likewise.lift (V := Eq) (.ok rfl)).bind fun _ _ _ => .pure .none

/-- **The entry of a module** is the same seen from the package. -/
theorem likewise_entryAt {paths : List String}
    (hpaths : ((inFolder f strict).sources d {}).2.result = .ok paths) {way : List String}
    (hway : Inside way) :
    Likewise (inFolder f strict) d (inFolder f' strict) d' (Option.Rel (SameEntry d d'))
      ((inFolder f strict).entryAt d (f.path way))
      ((inFolder f' strict).entryAt d' (f'.path way)) := by
  refine (likewise_module h hd hp hshort' hpaths hway).bind fun found found' hfound => ?_
  cases hfound with
  | none => exact .pure .none
  | @some m m' hm =>
    obtain ⟨names, hnames, hne, hmem, hleft, hright⟩ := hm
    have hinside := Inside.of_isName hnames
    dsimp only
    rw [hleft, hright]
    refine (likewise_outputs h hd hp hshort' hpaths hinside hne hmem).bind
      fun outputs outputs' houtputs => .pure (.some ⟨?_, relative_samePlace houtputs⟩)
    have hwithin : within? [] names = some names := Path.within?_of_isName hnames []
    rw [ModuleEntry.name, ModuleEntry.name, hleft, hright, Disk.relative, Disk.relative,
      Folder.relative_path hinside.isStep hwithin, Folder.relative_path hinside.isStep hwithin]

/-- **The first source from which the entry point is compiled** is the same. -/
theorem likewise_firstEmitting {paths : List String}
    (hpaths : ((inFolder f strict).sources d {}).2.result = .ok paths)
    {candidates : List (List String)} (hcandidates : ∀ way ∈ candidates, ∀ n ∈ way, IsName n)
    {ways : List (List String)}
    (hways : ∀ way ∈ ways, (Inside way ∧ way ≠ []) ∧ f.path way ∈ paths) :
    Likewise (inFolder f strict) d (inFolder f' strict) d'
      (Option.Rel fun path path' => ∃ way, Inside way ∧ path = f.path way ∧ path' = f'.path way)
      ((inFolder f strict).firstEmitting d (candidates.map f.path) (ways.map f.path))
      ((inFolder f' strict).firstEmitting d' (candidates.map f'.path) (ways.map f'.path)) := by
  induction ways with
  | nil => exact .pure .none
  | cons way rest ih =>
    obtain ⟨⟨⟨hway, hne⟩, hmem⟩, hrest⟩ := List.forall_mem_cons.mp hways
    rw [List.map_cons, List.map_cons, firstEmitting, firstEmitting]
    refine (likewise_outputs h hd hp hshort' hpaths hway hne hmem).bind
      fun emitted emitted' hemitted => ?_
    rw [any_contains_samePlace hcandidates hemitted]
    split_ifs
    · exact .pure (.some ⟨way, hway, rfl, rfl⟩)
    · exact ih hrest

/-- **The main module does not depend on where its package lies.** -/
theorem alike_mainModuleEntry :
    Alike Failure.IsTooLong (Option.Rel (SameEntry d d'))
      ((inFolder f strict).mainModuleEntry d {}).2.result
      ((inFolder f' strict).mainModuleEntry d' {}).2.result := by
  suffices hall : Likewise (inFolder f strict) d (inFolder f' strict) d'
      (Option.Rel (SameEntry d d')) ((inFolder f strict).mainModuleEntry d)
      ((inFolder f' strict).mainModuleEntry d') from hall.alike
  refine (likewise_mainFile h hp).bind fun main main' hmain => ?_
  cases hmain with
  | none => exact .pure .none
  | some hmain =>
    obtain ⟨goal, hne, hgoal, rfl, rfl⟩ := hmain
    obtain ⟨candidates, hcandidates, hspelled⟩ := exists_mainCandidates hne hgoal
    refine (likewise_sources h hd hp hshort').bind fun paths paths' hpaths => ?_
    obtain ⟨⟨ways, hways, rfl, rfl⟩, hsources⟩ := hpaths
    rw [hspelled f, hspelled f']
    refine (likewise_firstEmitting h hd hp hshort' hsources hcandidates
      fun way hway => ⟨hways way hway, List.mem_map_of_mem hway⟩).bind fun first first' hfirst => ?_
    have note (text text' : String) {q q' : Query (Option ModuleEntry)}
        (hq : Likewise (inFolder f strict) d (inFolder f' strict) d'
          (Option.Rel (SameEntry d d')) q q') :
        Likewise (inFolder f strict) d (inFolder f' strict) d' (Option.Rel (SameEntry d d'))
          (do .lift (.log .info .extraction text); q)
          (do .lift (.log .info .extraction text'); q') :=
      (Likewise.lift (V := Eq) (.ok rfl)).bind fun _ _ _ => hq
    cases hfirst with
    | none => exact note _ _ (.pure .none)
    | some hfirst =>
      obtain ⟨way, hway, rfl, rfl⟩ := hfirst
      exact note _ _ (likewise_entryAt h hd hp hshort' hsources hway)

end

/-! ### Two packages -/

/-- Any consistent cache tells the sources, the root of the layout and the folders of options. -/
theorem Consistent.result_eq {p : Project} {d : Disk} {cache : Cache} (h : Consistent p d cache) :
    (p.sources d cache).2.result = (p.sources d {}).2.result ∧
      (p.rootDir d cache).2.result = (p.rootDir d {}).2.result ∧
      ∀ name, (p.optionFolder d name cache).2.result = (p.optionFolder d name {}).2.result := by
  have hsources : Transparent p d (p.sources d) := (likeness_transparent p d).ask_sources
  have hrootDir : Transparent p d (p.rootDir d) := (likeness_transparent p d).ask_rootDir
  have hoption (name : String) : Transparent p d (p.optionFolder d name) :=
    (likeness_transparent p d).ask_optionFolder name
  exact ⟨(hsources cache h).2, (hrootDir cache h).2, fun name => (hoption name cache h).2⟩

/-- What the two packages hold. -/
def twin : List (String × Item) := [
  ("base.json", .file ⟨Utf8.encode
    "\x7b\"compilerOptions\":\x7b\"outDir\":\"lib\"\x7d\x7d", none, none⟩),
  ("package.json", .file ⟨Utf8.encode "\x7b\"main\":\"lib/a\"\x7d", none, none⟩),
  ("src", .folder [("a.ts", .file ⟨[], none, none⟩)]),
  ("tsconfig.json", .file ⟨Utf8.encode
    "\x7b\"extends\":\"./base\",\"include\":[\"src\"]\x7d", none, none⟩)]

/-- A package and a copy of it, in a folder whose name has an extension. -/
def twins : Disk where
  entries := [("p", .folder twin), ("q.v1", .folder twin)]
  cwd := "/"
  limits := .uniform 8

/-- The folder of a package. -/
def atTwin (name : String) (h : IsName name) : Folder :=
  ⟨"/", [name], Folder.isRoot_slash, List.forall_mem_singleton.mpr h⟩

/-- The package. -/
def firstTwin : Folder := atTwin "p" (by decide)

/-- Its copy. -/
def secondTwin : Folder := atTwin "q.v1" (by decide)

/-- What the two packages hold is found in their folders. -/
private theorem find_twin {name : String} (h : IsName name)
    (hshort : Disk.byteSize name ≤ Disk.maxName)
    (hfit : Disk.refusal? ((atTwin name h).path []) = none) (hname : Disk.canonical name = name)
    (hlookup : twins.entries.lookup name = some (.folder twin)) :
    twins.find ((atTwin name h).path []) = .ok (.folder twin) := by
  have hroot : twins.find "/" = .ok (.folder twins.entries) := rfl
  rw [← hname] at hlookup
  exact Disk.find_entry (f := ⟨"/", [], Folder.isRoot_slash, List.forall_mem_nil _⟩) hroot
    (by decide +kernel) h hshort hfit hlookup

private theorem copies_twins : twins.Copies firstTwin twins secondTwin := by
  have hfirst : twins.find (firstTwin.path []) = .ok (.folder twin) :=
    find_twin (by decide) (by decide +kernel) (by decide +kernel) (by decide +kernel) rfl
  have hsecond : twins.find (secondTwin.path []) = .ok (.folder twin) :=
    find_twin (by decide) (by decide +kernel) (by decide +kernel) (by decide +kernel) rfl
  exact Disk.copies_of_tree hfirst hsecond rfl (by decide +kernel) (by decide +kernel)
    (by decide +kernel) (by decide +kernel)

private theorem contained_firstTwin : Config.AllContained twins firstTwin := by
  have hbases : Config.bases twins "/p/tsconfig.json" = ["/p/base.json"] ∧
      Config.bases twins "/p/base.json" = [] := by decide +kernel
  have hfiles {chain : List String} {file : String}
      (h : Config.Reached twins "/p/tsconfig.json" chain file) :
      file = firstTwin.path ["tsconfig.json"] ∨ file = firstTwin.path ["base.json"] := by
    induction h with
    | start => exact .inl rfl
    | base _ _ hb ih =>
      rcases ih with rfl | rfl
      · exact .inr (List.mem_singleton.mp (hbases.1 ▸ hb))
      · exact absurd (hbases.2 ▸ hb) List.not_mem_nil
  have hcontained :
      Config.Contained [] (Config.settings twins (firstTwin.path ["tsconfig.json"])) ∧
      Config.Contained [] (Config.settings twins (firstTwin.path ["base.json"])) := by
    decide +kernel
  intro chain way name hnames hreached
  have hway {file : String} (hfile : IsName file)
      (h : firstTwin.path (way ++ [name]) = firstTwin.path [file]) : way ++ [name] = [] ++ [file] :=
    (Folder.path_inj (fun s hs => (hnames s hs).toIsStep)
      (List.forall_mem_singleton.mpr hfile.toIsStep)).mp h
  rcases hfiles hreached with h | h
  · obtain ⟨rfl, -⟩ := List.append_inj' (hway (by decide) h) rfl
    rw [h]
    exact hcontained.1
  · obtain ⟨rfl, -⟩ := List.append_inj' (hway (by decide) h) rfl
    rw [h]
    exact hcontained.2

/-- The package can be moved, and its entry of `include` is short enough in the copy, too. -/
private theorem movable_twins : Movable firstTwin true twins ∧
    ShortIncludes firstTwin true twins secondTwin twins := by
  have hpackage : ∃ package, ((inFolder firstTwin true).package twins {}).2.result = .ok package ∧
      (package.get? "main").bind Json.asStr? = some "lib/a" := by decide +kernel
  -- the configuration is loaded once, and the rest is told from the cache
  have hloaded : ∃ config,
      (Config.loadChain twins (inFolder firstTwin true).compilerPath true).result = .ok config ∧
      ((listSetting config "include").getD []).map Json.text = ["src"] ∧
      (∃ paths, ((inFolder firstTwin true).sources twins { compiler := some config }).2.result =
        .ok paths ∧ paths = ["/p/src/a.ts"]) ∧
      (∃ layout, ((inFolder firstTwin true).rootDir twins { compiler := some config }).2.result =
        .ok layout ∧ layout = "/p/src") ∧
      ∀ option ∈ [("outDir", some (firstTwin.path ["lib"])), ("declarationDir", none)], ∃ folder,
        ((inFolder firstTwin true).optionFolder twins option.1
          { compiler := some config }).2.result = .ok folder ∧ folder = option.2 := by
    decide +kernel
  obtain ⟨package, hpackage, hmain⟩ := hpackage
  obtain ⟨config, hconfig, hinclude, hsources, hrootDir, hoptions⟩ := hloaded
  have hcache : Consistent (inFolder firstTwin true) twins { compiler := some config } :=
    { Consistent.empty _ twins with compiler := fun h => Option.some.inj h ▸ hconfig }
  obtain ⟨hask, haskRoot, haskOption⟩ := hcache.result_eq
  have hsources : ((inFolder firstTwin true).sources twins {}).2.result = .ok ["/p/src/a.ts"] :=
    hask.symm.trans (Except.eq_ok_of_exists hsources)
  have hrootDir : ((inFolder firstTwin true).rootDir twins {}).2.result = .ok "/p/src" :=
    haskRoot.symm.trans (Except.eq_ok_of_exists hrootDir)
  have hout : ((inFolder firstTwin true).optionFolder twins "outDir" {}).2.result =
      .ok (some (firstTwin.path ["lib"])) :=
    (haskOption "outDir").symm.trans (Except.eq_ok_of_exists (hoptions _ List.mem_cons_self))
  have hdeclarations : ((inFolder firstTwin true).optionFolder twins "declarationDir" {}).2.result =
      .ok none := (haskOption "declarationDir").symm.trans
        (Except.eq_ok_of_exists (hoptions _ (List.mem_cons_of_mem _ List.mem_cons_self)))
  have hshort {f : Folder} (h : ∃ item, twins.find (Path.join (f.path []) "src") = .ok item ∧
      item.isFolder = true) : ShortIncludes firstTwin true twins f twins := by
    intro other hother entry hentry
    rw [compiler, Query.snd_cached rfl, Query.lift_apply, hconfig] at hother
    obtain rfl := Except.ok.inj hother
    have htext : entry.text = "src" :=
      List.mem_singleton.mp (hinclude ▸ List.mem_map_of_mem hentry)
    have htrim : Text.trimEnd "src" '/' = "src" := by decide
    obtain ⟨item, hitem, -⟩ := h
    rw [Sources.IsShort, htext, htrim, hitem]
    intro heq
    cases heq
  refine ⟨⟨contained_firstTwin, fun {other text} h htext _ => ?_, hshort (by decide +kernel), ?_⟩,
    hshort (by decide +kernel)⟩
  · obtain rfl := Except.ok.inj (h.symm.trans hpackage)
    rw [htext] at hmain
    obtain rfl : text = "lib/a" := Option.some.inj hmain
    decide
  · intro paths layout hpaths hlayout s hs _ way hrelative name hname folder hfolder hoption
    obtain rfl := Except.ok.inj (hpaths.symm.trans hsources)
    obtain rfl := Except.ok.inj (hlayout.symm.trans hrootDir)
    obtain rfl := List.mem_singleton.mp hs
    have hway : twins.relative (Path.splitExtension "/p/src/a.ts").1 "/p/src" = .ok "a" :=
      Except.eq_ok_of_exists (by decide +kernel)
    obtain rfl := Except.ok.inj (hrelative.symm.trans hway)
    rcases List.mem_pair.mp hname with rfl | rfl
    · have heq := Option.some.inj (Except.ok.inj (hoption.symm.trans hout))
      obtain rfl := (Folder.path_inj (fun s hs => (hfolder s hs).toIsStep)
        (List.forall_mem_singleton.mpr (show IsName "lib" by decide).toIsStep)).mp heq
      decide
    · cases hoption.symm.trans hdeclarations

/-- The package and its copy have the same main module, and there is one. -/
theorem alike_mainModuleEntry_twins :
    (∃ entry, ((inFolder firstTwin true).mainModuleEntry twins {}).2.result = .ok entry ∧
      entry.isSome = true) ∧
    Alike Failure.IsTooLong (Option.Rel (SameEntry twins twins))
      ((inFolder firstTwin true).mainModuleEntry twins {}).2.result
      ((inFolder secondTwin true).mainModuleEntry twins {}).2.result := by
  obtain ⟨hmovable, hshort⟩ := movable_twins
  have hnamed : twins.WellNamed := by decide +kernel
  exact ⟨by decide +kernel, alike_mainModuleEntry copies_twins hnamed hmovable hshort⟩

end Project

end ApiOutline
