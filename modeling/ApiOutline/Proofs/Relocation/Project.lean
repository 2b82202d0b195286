import ApiOutline.Proofs.Relocation.Sources

/-!
# Projects of copies

Two projects with the same mode, one at a folder and the other at a copy of it, answer alike, query
by query: their options correspond, their sources are the same files (`likewise_sources`), and the
roots of their layouts have the same names below the folders (`likewise_rootDir`).

Besides contained configuration files this takes three things, which make a package `Movable`. The
entry point must not be the package folder itself, since its extension is then that of the folder.
An entry of `include` must not be too long to be looked up, since looking whether it is a folder
hides that. And what is generated for a source has to stay in the package: the way from the root of
the layout may begin with steps up, which lead from an output folder out of the package, and back
into it by its name.
-/

namespace ApiOutline

open ApiOutline.Path (IsStep IsName Folder Inside within? goal?)

namespace Project

variable {d d' : Disk} {p p' : Project}

/-! ### Queries that are answered alike -/

/-- From consistent caches two queries are answered alike, and they leave consistent caches if both
are answered. -/
def Likewise (p : Project) (d : Disk) (p' : Project) (d' : Disk) {α β : Type} (V : α → β → Prop)
    (q : Query α) (q' : Query β) : Prop :=
  ∀ cache cache', Consistent p d cache → Consistent p' d' cache' →
    Alike Failure.IsTooLong
      (fun a b => V a b ∧ Consistent p d (q cache).1 ∧ Consistent p' d' (q' cache').1)
      (q cache).2.result (q' cache').2.result

namespace Likewise

variable {α β γ δ : Type} {V : α → β → Prop} {W : γ → δ → Prop} {q : Query α} {q' : Query β}

theorem lift {x : Outcome Failure α} {y : Outcome Failure β}
    (h : Alike Failure.IsTooLong V x.result y.result) : Likewise p d p' d' V (.lift x) (.lift y) :=
  fun _ _ hcache hcache' => h.mono fun hV => ⟨hV, hcache, hcache'⟩

theorem pure {a : α} {b : β} (h : V a b) : Likewise p d p' d' V (pure a) (pure b) :=
  lift (.ok h)

/-- **One query after another** is answered alike. -/
theorem bind {f : α → Query γ} {f' : β → Query δ} (hq : Likewise p d p' d' V q q')
    (hf : ∀ a b, V a b → Likewise p d p' d' W (f a) (f' b)) :
    Likewise p d p' d' W (q >>= f) (q' >>= f') := by
  intro cache cache' hcache hcache'
  have h := hq cache cache' hcache hcache'
  generalize hx : (q cache).2.result = x at h
  generalize hy : (q' cache').2.result = y at h
  cases h with
  | @ok a b h =>
    obtain ⟨hV, hafter, hafter'⟩ := h
    rw [Query.bind_of_ok hx, Query.bind_of_ok hy]
    exact hf a b hV _ _ hafter hafter'
  | error e e' =>
    rw [Query.bind_of_error hx, Query.bind_of_error hy]
    exact .error e e'
  | left h y =>
    rw [Query.bind_of_error hx]
    exact .left h _
  | right x h =>
    rw [Query.bind_of_error hy]
    exact .right _ h

/-- Transparent queries may be compared at empty caches, and what the first one answers there is
known in what follows. -/
theorem of_transparent (hq : Transparent p d q) (hq' : Transparent p' d' q')
    (h : Alike Failure.IsTooLong V (q {}).2.result (q' {}).2.result) :
    Likewise p d p' d' (fun a b => V a b ∧ (q {}).2.result = .ok a) q q' := by
  intro cache cache' hcache hcache'
  obtain ⟨hafter, hresult⟩ := hq cache hcache
  obtain ⟨hafter', hresult'⟩ := hq' cache' hcache'
  rw [hresult, hresult']
  generalize (q {}).2.result = x at h
  generalize (q' {}).2.result = y at h
  cases h with
  | ok h => exact .ok ⟨⟨h, rfl⟩, hafter, hafter'⟩
  | error e e' => exact .error e e'
  | left h y => exact .left h y
  | right x h => exact .right x h

/-- At empty caches the answers are alike. -/
theorem alike (h : Likewise p d p' d' V q q') :
    Alike Failure.IsTooLong V (q {}).2.result (q' {}).2.result :=
  (h {} {} (.empty p d) (.empty p' d')).mono fun hV => hV.1

end Likewise

/-! ### Packages that can be moved -/

/-- The project at a folder. -/
abbrev inFolder (f : Folder) (strict : Bool) : Project :=
  ⟨f.path [], strict⟩

variable {f f' : Folder} {strict : Bool}

/-- No entry of `include` that the package at `f` has is too long to be looked up in `f'`. -/
def ShortIncludes (f : Folder) (strict : Bool) (d : Disk) (f' : Folder) (d' : Disk) : Prop :=
  ∀ {config}, ((inFolder f strict).compiler d {}).2.result = .ok config →
    ∀ entry ∈ (listSetting config "include").getD [], Sources.IsShort d' f' entry.text

/-- A package whose main module is told by what the package folder holds: its configuration names
only what is inside, its entry point is not the folder itself, the entries of `include` can be
looked up, and what is generated in a folder of compiled files stays inside. -/
structure Movable (f : Folder) (strict : Bool) (d : Disk) : Prop where
  contained : Config.AllContained d f
  main : ∀ {package text}, ((inFolder f strict).package d {}).2.result = .ok package →
    package.get? "main" = some (.str text) → Text.isBlankText text = false →
    ∃ goal ∈ goal? [] text, goal ≠ []
  short : ShortIncludes f strict d f d
  placed : ∀ {paths layout}, ((inFolder f strict).sources d {}).2.result = .ok paths →
    ((inFolder f strict).rootDir d {}).2.result = .ok layout →
    ∀ s ∈ paths, Sources.isDeclaration s = false →
      ∀ way, d.relative (Path.splitExtension s).1 layout = .ok way →
        ∀ name ∈ ["outDir", "declarationDir"], ∀ folder, (∀ n ∈ folder, IsName n) →
          ((inFolder f strict).optionFolder d name {}).2.result = .ok (some (f.path folder)) →
            ∀ e ∈ generatedExtensions, (goal? folder (way ++ e)).isSome = true

/-! ### Configuration -/

/-- Two paths lead to the same place below the folders. -/
def SamePlace (f f' : Folder) (path path' : String) : Prop :=
  ∃ way, (∀ n ∈ way, IsName n) ∧ path = f.path way ∧ path' = f'.path way

private theorem packagePath_inFolder (f : Folder) (strict : Bool) :
    (inFolder f strict).packagePath = f.path ["package.json"] := by
  have hname : IsName "package.json" := by decide
  exact Folder.join_path (List.forall_mem_nil _) hname.toIsStep

private theorem compilerPath_inFolder (f : Folder) (strict : Bool) :
    (inFolder f strict).compilerPath = f.path ["tsconfig.json"] := by
  have hname : IsName "tsconfig.json" := by decide
  exact Folder.join_path (List.forall_mem_nil _) hname.toIsStep

/-- The package files hold the same. -/
private theorem likewise_package (h : d.Copies f d' f') (strict : Bool) :
    Likewise (inFolder f strict) d (inFolder f' strict) d'
      (fun fields fields' => fields = fields' ∧
        ((inFolder f strict).package d {}).2.result = .ok fields)
      ((inFolder f strict).package d) ((inFolder f' strict).package d') := by
  have hinside : Inside ["package.json"] := .of_isName (by decide)
  refine .of_transparent (transparent_package _ d) (transparent_package _ d') ?_
  rw [package, package, Query.snd_cached rfl, Query.snd_cached rfl, packagePath_inFolder,
    packagePath_inFolder]
  rw [Config.load, Config.load, h.limits]
  exact Config.alike_loadWithin h hinside d'.limits.nesting strict false

/-- **The entry point** lies at the same place below the package folder, and is not that folder. -/
theorem likewise_mainFile (h : d.Copies f d' f') (hp : Movable f strict d) :
    Likewise (inFolder f strict) d (inFolder f' strict) d'
      (Option.Rel fun main main' => ∃ goal, goal ≠ [] ∧ (∀ n ∈ goal, IsName n) ∧
        main = f.path goal ∧ main' = f'.path goal)
      ((inFolder f strict).mainFile d) ((inFolder f' strict).mainFile d') := by
  refine (likewise_package h strict).bind fun package _ hpackage => .lift ?_
  obtain ⟨rfl, hpackage⟩ := hpackage
  rw [Config.mainFile.eq_def, Config.mainFile.eq_def]
  split
  · exact .ok .none
  · exact .ok .none
  · next text htext =>
    split_ifs with hblank
    · exact Outcome.alike_settle strict _ _ .none
    · obtain ⟨goal, hgoal, hne⟩ := hp.main hpackage htext (Bool.not_eq_true _ ▸ hblank)
      refine .ok (.some ⟨goal, hne, Path.isName_of_goal? (by simp) hgoal, ?_, ?_⟩)
      · exact f.normalize_join (by simp) hgoal
      · exact f'.normalize_join (by simp) hgoal
  · exact Outcome.alike_settle strict _ _ .none

/-- The configurations of the compiler correspond. -/
private theorem likewise_compiler (h : d.Copies f d' f') (hp : Movable f strict d) :
    Likewise (inFolder f strict) d (inFolder f' strict) d'
      (fun config config' => Json.Fields.Match (Config.SettingMatch f f') config config' ∧
        ((inFolder f strict).compiler d {}).2.result = .ok config)
      ((inFolder f strict).compiler d) ((inFolder f' strict).compiler d') := by
  refine .of_transparent (transparent_compiler _ d) (transparent_compiler _ d') ?_
  rw [compiler, compiler, Query.snd_cached rfl, Query.snd_cached rfl, compilerPath_inFolder,
    compilerPath_inFolder]
  exact Config.alike_loadChain h hp.contained strict

/-- The options of the compiler correspond. -/
theorem likewise_options (h : d.Copies f d' f') (hp : Movable f strict d) :
    Likewise (inFolder f strict) d (inFolder f' strict) d'
      (Json.Fields.Match (Config.OptionMatch f f'))
      ((inFolder f strict).options d) ((inFolder f' strict).options d') := by
  refine (likewise_compiler h hp).bind fun config config' hconfig => .lift ?_
  have hget := hconfig.1.get "compilerOptions"
  rw [Config.compilerOptions, Config.compilerOptions]
  generalize config.get? "compilerOptions" = value at hget
  generalize config'.get? "compilerOptions" = value' at hget
  cases hget with
  | none => exact .ok .nil
  | @some value value' hvalue =>
    cases hvalue with
    | options _ hoptions => exact .ok hoptions
    | same hkey _ =>
      cases value with
      | obj options => cases hkey rfl
      | _ => exact Outcome.alike_settle strict _ _ .nil

/-- An option that holds a path names the same place. -/
private theorem samePlace_folderIn {options options' : Json.Fields}
    (h : Json.Fields.Match (Config.OptionMatch f f') options options') {name : String}
    (hname : name ∈ Config.pathOptions) :
    Option.Rel (SamePlace f f') ((inFolder f strict).folderIn options name)
      ((inFolder f' strict).folderIn options' name) := by
  have hget := h.get name
  rw [folderIn, folderIn]
  generalize options.get? name = value at hget
  generalize options'.get? name = value' at hget
  cases hget with
  | none => exact .none
  | @some value value' hvalue =>
    cases hvalue with
    | same hempty =>
      cases value with
      | str text =>
        dsimp only
        rw [if_pos (hempty hname text rfl), if_pos (hempty hname text rfl)]
        exact .none
      | _ => exact .none
    | @path way _ hway =>
      have hfolder (f : Folder) : (if f.path way = "" then none else
          some (Path.normalize (Path.join (inFolder f strict).root (f.path way)))) =
          some (f.path way) := by
        have habs := f.isAbsolute_path way
        rw [if_neg (Path.ne_empty_of_isAbsolute habs), Path.join_of_isAbsolute habs,
          Folder.normalize_of_isName hway]
      dsimp only
      rw [hfolder f, hfolder f']
      exact .some ⟨way, hway, rfl, rfl⟩

/-- **A folder that an option names** lies at the same place. -/
theorem likewise_optionFolder (h : d.Copies f d' f') (hp : Movable f strict d) {name : String}
    (hname : name ∈ Config.pathOptions) :
    Likewise (inFolder f strict) d (inFolder f' strict) d'
      (fun folder folder' => Option.Rel (SamePlace f f') folder folder' ∧
        ((inFolder f strict).optionFolder d name {}).2.result = .ok folder)
      ((inFolder f strict).optionFolder d name) ((inFolder f' strict).optionFolder d' name) := by
  have hfolder : Likewise (inFolder f strict) d (inFolder f' strict) d'
      (Option.Rel (SamePlace f f')) ((inFolder f strict).optionFolder d name)
      ((inFolder f' strict).optionFolder d' name) := by
    rw [optionFolder_eq, optionFolder_eq]
    exact (likewise_options h hp).bind fun options options' hoptions =>
      .pure (samePlace_folderIn hoptions hname)
  have hask (f : Folder) (d : Disk) : Transparent (inFolder f strict) d
      ((inFolder f strict).optionFolder d name) := (likeness_transparent _ d).ask_optionFolder name
  exact .of_transparent (hask f d) (hask f' d') hfolder.alike

private theorem exists_ways_toList {folder folder' : Option String}
    (h : Option.Rel (SamePlace f f') folder folder') :
    ∃ ways : List (List String), (∀ way ∈ ways, ∀ n ∈ way, IsName n) ∧
      folder.toList = ways.map f.path ∧ folder'.toList = ways.map f'.path := by
  cases h with
  | none => exact ⟨[], by simp, rfl, rfl⟩
  | some h =>
    obtain ⟨way, hway, rfl, rfl⟩ := h
    exact ⟨[way], by simpa using hway, rfl, rfl⟩

/-! ### Sources -/

/-- **The sources** are the same files, in the same order. -/
theorem likewise_sources (h : d.Copies f d' f') (hd : d.WellNamed) (hp : Movable f strict d)
    (hshort' : ShortIncludes f strict d f' d') :
    Likewise (inFolder f strict) d (inFolder f' strict) d'
      (fun paths paths' => Listed f f' paths paths' ∧
        ((inFolder f strict).sources d {}).2.result = .ok paths)
      ((inFolder f strict).sources d) ((inFolder f' strict).sources d') := by
  have hload : Likewise (inFolder f strict) d (inFolder f' strict) d' (Listed f f')
      ((inFolder f strict).loadSources d) ((inFolder f' strict).loadSources d') := by
    refine (likewise_compiler h hp).bind fun config config' hconfig => ?_
    obtain ⟨hmatch, hconfig⟩ := hconfig
    have hnamed := alike_configuredSources h hd strict hmatch fun entry hentry =>
      ⟨hp.short hconfig entry hentry, hshort' hconfig entry hentry⟩
    refine (Likewise.lift hnamed).bind fun paths paths' hpaths => ?_
    have note {paths paths' : List String} (hpaths : Listed f f' paths paths')
        (text text' : String) : Likewise (inFolder f strict) d (inFolder f' strict) d'
        (Listed f f') (do .lift (.log .info .project text); return paths)
        (do .lift (.log .info .project text'); return paths') :=
      (Likewise.lift (V := Eq) (.ok rfl)).bind fun _ _ _ => .pure hpaths
    cases hpaths with
    | some hpaths =>
      exact (Likewise.pure hpaths).bind fun paths paths' hpaths => note hpaths _ _
    | none =>
      refine (likewise_optionFolder h hp (by decide)).bind fun out out' hout => ?_
      refine (likewise_optionFolder h hp (by decide)).bind
        fun declarations declarations' hdeclarations => ?_
      obtain ⟨ways, hways, hleft, hright⟩ := exists_ways_toList hout.1
      obtain ⟨others, hothers, hleft', hright'⟩ := exists_ways_toList hdeclarations.1
      rw [hleft, hright, hleft', hright', ← List.map_append, ← List.map_append]
      have hfound := Sources.alike_discover h hd (List.forall_mem_append.mpr ⟨hways, hothers⟩)
      exact (Likewise.lift hfound).bind fun paths paths' hpaths => note hpaths _ _
  have hask (f : Folder) (d : Disk) : Transparent (inFolder f strict) d
      ((inFolder f strict).sources d) := (likeness_transparent _ d).ask_sources
  refine .of_transparent (hask f d) (hask f' d') ?_
  rw [sources, sources, Query.snd_cached rfl, Query.snd_cached rfl]
  exact hload.alike

/-! ### The root of the layout -/

/-- Whether a source is compiled is told by its last step. -/
theorem isDeclaration_path {way : List String} (hne : way ≠ []) (f f' : Folder) :
    Sources.isDeclaration (f.path way) = Sources.isDeclaration (f'.path way) := by
  obtain rfl | ⟨init, last, rfl⟩ := List.eq_nil_or_concat' way
  · exact absurd rfl hne
  have hslash : ∀ ending ∈ [".d.ts", ".d.mts", ".d.cts"], '/' ∉ ending.toList := by decide
  rw [Sources.isDeclaration, Sources.isDeclaration, Bool.eq_iff_iff, List.any_eq_true,
    List.any_eq_true]
  refine exists_congr fun ending => and_congr_right fun hmem => ?_
  rw [f.endsWith_path init (hslash ending hmem), f'.endsWith_path init (hslash ending hmem)]

/-- Two paths have the same names below the folders. -/
def SameNames (d : Disk) (f : Folder) (d' : Disk) (f' : Folder) (path path' : String) : Prop :=
  ∃ names, Path.names (d.absolute path) = f.names ++ names ∧
    Path.names (d'.absolute path') = f'.names ++ names

theorem SameNames.of_inside {steps : List String} (h : Inside steps) :
    SameNames d f d' f' (f.path steps) (f'.path steps) := by
  obtain ⟨names, hnames, -⟩ := h.exists_names
  exact ⟨names, Folder.names_absolute_path h.isStep hnames d.cwd,
    Folder.names_absolute_path h.isStep hnames d'.cwd⟩

private theorem SameNames.of_single {steps : List String} (h : Inside steps) :
    SameNames d f d' f' (f.single.path steps) (f'.single.path steps) :=
  of_inside h

/-- The deepest folders above the folders of some paths have the same names. -/
private theorem sameNames_common {first : List String} {rest : List (List String)}
    (h : ∀ way ∈ first :: rest, Inside way ∧ way ≠ []) :
    SameNames d f d' f' (Path.common (((first :: rest).map f.path).map Path.dirname))
      (Path.common (((first :: rest).map f'.path).map Path.dirname)) := by
  have hdrop : ∀ way ∈ first :: rest, Inside way.dropLast ∧
      ∀ f : Folder, Path.dirname (f.path way) = f.path way.dropLast := by
    intro way hway
    obtain ⟨hinside, hne⟩ := h way hway
    obtain rfl | ⟨init, last, rfl⟩ := List.eq_nil_or_concat' way
    · exact absurd rfl hne
    rw [List.dropLast_concat]
    refine ⟨hinside.of_append, fun f => Folder.dirname_path hinside.of_append.isStep ?_⟩
    exact hinside.isStep last (by simp)
  have hfolders (f : Folder) : ((first :: rest).map f.path).map Path.dirname =
      (first.dropLast :: rest.map List.dropLast).map f.path := by
    rw [← List.map_cons, List.map_map, List.map_map]
    exact List.map_congr_left fun way hway => (hdrop way hway).2 f
  have hsteps : ∀ steps ∈ first.dropLast :: rest.map List.dropLast, ∀ s ∈ steps, IsStep s := by
    rw [← List.map_cons]
    exact List.forall_mem_map.mpr fun way hway => (hdrop way hway).1.isStep
  rw [hfolders f, hfolders f', f.common_path hsteps, f'.common_path hsteps]
  refine .of_single ((hdrop first List.mem_cons_self).1.of_isPrefix ?_)
  exact Path.foldl_commonStart_isPrefix List.mem_cons_self

/-- **The root of the layout** has the same names. -/
theorem likewise_rootDir (h : d.Copies f d' f') (hd : d.WellNamed) (hp : Movable f strict d)
    (hshort' : ShortIncludes f strict d f' d') :
    Likewise (inFolder f strict) d (inFolder f' strict) d'
      (fun layout layout' => SameNames d f d' f' layout layout' ∧
        ((inFolder f strict).rootDir d {}).2.result = .ok layout)
      ((inFolder f strict).rootDir d) ((inFolder f' strict).rootDir d') := by
  have hroot : Likewise (inFolder f strict) d (inFolder f' strict) d' (SameNames d f d' f')
      ((inFolder f strict).rootDir d) ((inFolder f' strict).rootDir d') := by
    refine (likewise_optionFolder h hp (by decide)).bind fun folder folder' hfolder => ?_
    obtain ⟨hplace, -⟩ := hfolder
    cases hplace with
    | some hplace =>
      obtain ⟨way, hway, rfl, rfl⟩ := hplace
      exact .pure (.of_inside (.of_isName hway))
    | none =>
      refine (likewise_sources h hd hp hshort').bind fun paths paths' hpaths => ?_
      have hinputs : Listed f f' (paths.filter fun path => !Sources.isDeclaration path)
          (paths'.filter fun path => !Sources.isDeclaration path) :=
        hpaths.1.filter fun way _ hne => congrArg not (isDeclaration_path hne f f')
      obtain ⟨ways, hways, hleft, hright⟩ := hinputs
      dsimp only
      rw [hleft, hright]
      cases ways with
      | nil => exact .pure (.of_inside .nil)
      | cons first rest => exact .pure (sameNames_common hways)
  have hask (f : Folder) (d : Disk) : Transparent (inFolder f strict) d
      ((inFolder f strict).rootDir d) := (likeness_transparent _ d).ask_rootDir
  exact .of_transparent (hask f d) (hask f' d') hroot.alike

end Project

end ApiOutline
