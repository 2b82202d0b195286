import ApiOutline.Proofs.Path.Layout
import ApiOutline.Proofs.Project.Entries

/-!
# Where the generated files of a project lie

The files that are generated for a source mirror it: the way from the output folder to a generated
file is the way from the root of the layout to the source, with another extension. Without an option
that names it, the root of the layout is the deepest folder above all sources that are compiled, so
the way never leads up, and two sources have a generated file in common only if they differ in
nothing but their extensions (`outputs_mirror`).

This is so for the names of paths. A path that begins with two slashes stays apart from the one that
begins with one slash when it is normalized, but ways do not keep them apart, so two such sources
share the files in an output folder (`outputs_doubled`).
-/

namespace ApiOutline

open ApiOutline.Path (IsStep IsName IsRoot spell)

/-! ### Sources have the extension of a source -/

namespace Sources

variable {d : Disk} {excluded : List String} {q : String}

theorem isSource_join {name : String} (h : '/' ∉ name.toList) (dir : String) :
    isSource (Path.join dir name) = isSource name := by
  rw [isSource, isSource, Path.extension_join h]

mutual

private theorem isSource_of_mem_found :
    ∀ (item : Item) {dir name : String}, IsName name → item.wellNamed = true →
      q ∈ found d excluded name (Path.join dir name) item → isSource q = true
  | .folder entries, dir, name, hname, hitem, h => by
    rw [found] at h
    rw [Item.wellNamed] at hitem
    split at h
    · exact isSource_of_mem_foundIn entries hitem h
    · cases h
  | .file _, dir, name, hname, _, h => by
    rw [found] at h
    split at h
    · next hsource =>
      rwa [List.mem_singleton.mp h, isSource_join hname.no_slash]
    · cases h
  | .link _, dir, name, hname, _, h => by
    rw [found] at h
    split at h
    · next hsource =>
      rw [List.mem_singleton.mp h, isSource_join hname.no_slash]
      exact (Bool.and_eq_true_iff.mp hsource).1
    · cases h

private theorem isSource_of_mem_foundIn :
    ∀ (entries : List (String × Item)) {dir : String}, Item.wellNamedIn entries = true →
      q ∈ foundIn d excluded dir entries → isSource q = true
  | [], _, _, h => by
    rw [foundIn] at h
    cases h
  | (name, item) :: rest, dir, hentries, h => by
    obtain ⟨hname, hitem, hrest⟩ := Item.wellNamedIn_cons_iff.mp hentries
    rw [foundIn] at h
    rcases List.mem_append.mp h with h | h
    · exact isSource_of_mem_found item hname hitem h
    · exact isSource_of_mem_foundIn rest hrest h

end

end Sources

/-! ### Places in a folder -/

/-- A file lies in a folder, at the end of the given way. -/
structure Disk.LiesAt (d : Disk) (folder way file : String) : Prop where
  under : Path.names folder <+: Path.names file
  relative : d.relative file folder = .ok way

private theorem Disk.liesAt_spell (d : Disk) {root root' : String} {folder way : List String}
    (hr : IsRoot root) (hr' : IsRoot root') (hfolder : ∀ n ∈ folder, IsName n)
    (hway : ∀ n ∈ way, IsName n) (hne : way ≠ []) :
    d.LiesAt (spell root folder) ("/".intercalate way) (spell root' (folder ++ way)) := by
  have hall := List.forall_mem_append.mpr ⟨hfolder, hway⟩
  constructor
  · rw [Path.names_spell_of_isName hr hfolder, Path.names_spell_of_isName hr' hall]
    exact List.prefix_append folder way
  · refine Path.relative_of_names (Path.ne_empty_of_isAbsolute (Path.isAbsolute_spell hr' _)) ?_ hne
    rw [Path.names_absolute_spell hr hfolder, Path.names_absolute_spell hr' hall]

namespace Project

variable {p : Project} {d : Disk}

theorem isSource_of_mem_sources (hd : d.WellNamed) {paths : List String}
    (h : (p.sources d {}).2.result = .ok paths) {s : String} (hs : s ∈ paths) :
    Sources.isSource s = true := by
  obtain ⟨config, -, hnamed | ⟨-, excluded, hfound⟩⟩ := exists_config_of_sources h
  · exact ((mem_configuredSources hnamed).mp hs).1
  · obtain ⟨entries, hentries, hmem⟩ := exists_foundIn_of_discover hd hfound
    exact Sources.isSource_of_mem_foundIn entries hentries (hmem s hs)

/-! ### The layout of a project -/

/-- What a project answers about the layout of its files. -/
structure Layout where
  options : Json.Fields
  rootDir : String
  out : Option String
  declarations : Option String

namespace Layout

/-- The layout is that of a project. -/
structure Of (l : Layout) (p : Project) (d : Disk) : Prop where
  options : (p.options d {}).2.result = .ok l.options
  rootDir : (p.rootDir d {}).2.result = .ok l.rootDir
  out : (p.outDir d {}).2.result = .ok l.out
  declarations : (p.declarationDir d {}).2.result = .ok l.declarations

/-- Markup is left in the programs. -/
def keepsMarkup (l : Layout) : Bool :=
  match l.options.get? "jsx" with
  | some (.str "preserve") => true
  | _ => false

/-- The extension of the program that is compiled from a source with the given extension. -/
def programExtension? (l : Layout) (ext : String) : Option String :=
  (Sources.compiledExtensions.lookup ext).map fun compiled =>
    if l.keepsMarkup && ext == ".tsx" then ".jsx" else compiled

/-- Declarations are generated beside the programs. -/
def emitsDeclarations (l : Layout) : Bool :=
  (l.options.get? "declaration").any Json.isTruthy
    || (l.options.get? "composite").any Json.isTruthy

/-- The files that are generated for a source: its program, and its declarations if they are. -/
def files (l : Layout) (base way ext : String) : List String :=
  generated l.out base way ext ::
    if l.emitsDeclarations then
      [generated (l.declarations <|> l.out) base way (declarationExtension ext)]
    else []

end Layout

variable {l : Layout}

/-- Declarations are generated if the options ask for them. -/
private theorem gives_files (hl : l.Of p d) (base way ext : String) :
    Gives p d (if (l.options.get? "declaration").any Json.isTruthy
        || (l.options.get? "composite").any Json.isTruthy then do
          let declarations ← p.declarationDir d
          return [generated l.out base way ext,
            generated (declarations <|> l.out) base way (declarationExtension ext)]
        else return [generated l.out base way ext])
      (· = l.files base way ext) := by
  have hask := (likeness_transparent p d).ask_optionFolder "declarationDir"
  rw [Layout.files, Layout.emitsDeclarations]
  split
  · refine .bind (.of_transparent hask hl.declarations rfl) fun declarations hdeclarations => ?_
    subst hdeclarations
    exact .pure rfl
  · exact .pure rfl

/-- **The outputs of a source** are the files of the layout. -/
theorem result_outputs (hl : l.Of p d) {s way ext : String}
    (hcompiled : Sources.isDeclaration s = false)
    (hext : l.programExtension? (Path.extension s) = some ext)
    (hway : d.relative (Path.splitExtension s).1 l.rootDir = .ok way) :
    (p.outputs d s {}).2.result = .ok (l.files (Path.splitExtension s).1 way ext) := by
  have likeness := likeness_transparent p d
  obtain ⟨compiled, hlookup, hext⟩ := Option.map_eq_some_iff.mp hext
  have hgives : Gives p d (p.outputs d s) (· = l.files (Path.splitExtension s).1 way ext) := by
    rw [outputs, if_neg (by simp [hcompiled])]
    dsimp only
    rw [show Sources.compiledExtensions.lookup (Path.splitExtension s).2 = some compiled
      from hlookup]
    refine .bind (.of_transparent likeness.ask_options hl.options rfl) fun options hoptions => ?_
    refine .bind (.of_transparent likeness.ask_rootDir hl.rootDir rfl) fun folder hfolder => ?_
    subst hoptions hfolder
    have hlift : Gives p d (.lift (.ofPath (d.relative (Path.splitExtension s).1 l.rootDir)))
        (· = way) := .lift (by rw [hway]; rfl) rfl
    refine .bind hlift fun _ hway => ?_
    refine .bind (.of_transparent (likeness.ask_optionFolder "outDir") hl.out rfl)
      fun out hout => ?_
    subst hway hout
    have hkept : ext = if (match l.options.get? "jsx" with
        | some (.str "preserve") => (Path.splitExtension s).2 == ".tsx"
        | _ => false) = true then ".jsx" else compiled := by
      rw [← hext, Layout.keepsMarkup, Path.extension]
      split <;> simp
    rw [hkept]
    exact gives_files hl _ _ _
  obtain ⟨files, hfiles, rfl⟩ := hgives.result_eq
  exact hfiles

/-! ### Extensions of generated files -/

/-- The extensions of programs. -/
def programExtensions : List String :=
  [".js", ".jsx", ".mjs", ".cjs"]

/-- The extensions of generated declarations. -/
def declarationExtensions : List String :=
  [".d.ts", ".d.mts", ".d.cts"]

/-- The extensions of generated files. -/
def generatedExtensions : List String :=
  programExtensions ++ declarationExtensions

/-- No extension of generated files ends another one. -/
theorem generatedExtensions_suffix_free : ∀ e ∈ generatedExtensions, ∀ e' ∈ generatedExtensions,
    e.toList <:+ e'.toList → e = e' := by
  decide

theorem isName_append_generated {stem e : String} (h : IsName stem) (he : e ∈ generatedExtensions) :
    IsName (stem ++ e) := by
  have hall : ∀ e ∈ generatedExtensions, '/' ∉ e.toList ∧ 2 ≤ e.length := by decide
  exact Path.isName_append h (hall e he).1 (hall e he).2

/-- What a source is compiled to is a program. -/
theorem mem_programExtensions_of_lookup {ext compiled : String}
    (h : Sources.compiledExtensions.lookup ext = some compiled) :
    compiled ∈ programExtensions := by
  obtain ⟨before, after, hparts, -⟩ := List.lookup_eq_some_iff.mp h
  have hmem : (ext, compiled) ∈ Sources.compiledExtensions := by simp [hparts]
  have hall : ∀ pair ∈ Sources.compiledExtensions, pair.2 ∈ programExtensions := by decide
  exact hall _ hmem

private theorem mem_programExtensions {ext e : String} (h : l.programExtension? ext = some e) :
    e ∈ programExtensions := by
  obtain ⟨compiled, hlookup, rfl⟩ := Option.map_eq_some_iff.mp h
  split
  · decide
  · exact mem_programExtensions_of_lookup hlookup

theorem declarationExtension_mem (ext : String) :
    declarationExtension ext ∈ declarationExtensions := by
  rw [declarationExtension]
  split_ifs <;> decide

/-- The folder for the generated files with a given extension. -/
def Layout.folderFor (l : Layout) (e : String) : Option String :=
  if e ∈ programExtensions then l.out else l.declarations <|> l.out

private theorem mem_files {base way ext file : String} (hext : ext ∈ programExtensions)
    (h : file ∈ l.files base way ext) :
    ∃ e ∈ generatedExtensions, file = generated (l.folderFor e) base way e := by
  rcases List.mem_cons.mp h with rfl | h
  · exact ⟨ext, List.mem_append_left _ hext, by rw [Layout.folderFor, if_pos hext]⟩
  · split at h
    · have hdeclaration := declarationExtension_mem ext
      refine ⟨declarationExtension ext, List.mem_append_right _ hdeclaration, ?_⟩
      have hother : declarationExtension ext ∉ programExtensions := by
        have hall : ∀ e ∈ declarationExtensions, e ∉ programExtensions := by decide
        exact hall _ hdeclaration
      rw [Layout.folderFor, if_neg hother]
      exact List.mem_singleton.mp h
    · cases h

/-! ### Generated files mirror their sources -/

/-- A file mirrors a source that lies at the end of a way: in a folder it lies at the end of the
same way, and without one it stands beside the source. -/
def Mirrors (d : Disk) (source way ext file : String) : Option String → Prop
  | some folder => file = Path.join folder (way ++ ext) ∧ d.LiesAt folder (way ++ ext) file
  | none => file = (Path.splitExtension source).1 ++ ext

section Mirrors

variable {s root stem e : String} {shared rest : List String}

/-- A file that is generated in a folder is spelled from the names of the folder and the way. -/
private theorem generated_some (h : Path.Cut s root (shared ++ rest) stem)
    (he : e ∈ generatedExtensions)
    {root' : String} (hr : IsRoot root') {folder : List String} (hfolder : ∀ n ∈ folder, IsName n)
    (base : String) :
    generated (some (spell root' folder)) base ("/".intercalate (rest ++ [stem])) e =
      spell root' (folder ++ (rest ++ [stem ++ e])) := by
  have hbase : ∀ n ∈ rest ++ [stem], IsStep n := fun n hn =>
    (h.isName_way h.isName_stem n hn).toIsStep
  have hway := h.isName_way (isName_append_generated h.isName_stem he)
  rw [generated, Option.elim_some, ← Path.join_append (Path.isAbsolute_intercalate hbase)
      (Path.intercalate_ne_empty hbase (by simp)),
    Path.intercalate_append_last, Path.join_intercalate hr hfolder hway (by simp)]
  exact Path.normalize_spell hr (List.forall_mem_append.mpr ⟨hfolder, hway⟩)

/-- A file that is generated without a folder is spelled as its source. -/
private theorem generated_none (h : Path.Cut s root (shared ++ rest) stem)
    (he : e ∈ generatedExtensions)
    (way : String) :
    generated none (Path.splitExtension s).1 way e =
      spell root (shared ++ (rest ++ [stem ++ e])) := by
  have hway := h.isName_way (isName_append_generated h.isName_stem he)
  rw [generated, Option.elim_none, h.base, Path.spell_append_last, List.append_assoc]
  exact Path.normalize_spell h.isRoot (List.forall_mem_append.mpr ⟨h.isName_left, hway⟩)

/-- **Generated files mirror** their sources. -/
theorem mirrors_generated (d : Disk) (h : Path.Cut s root (shared ++ rest) stem)
    (he : e ∈ generatedExtensions) {folder : Option String}
    (hfolder : ∀ f ∈ folder, Path.IsNormal f) :
    Mirrors d s ("/".intercalate (rest ++ [stem])) e
      (generated folder (Path.splitExtension s).1 ("/".intercalate (rest ++ [stem])) e) folder := by
  cases folder with
  | none =>
    rw [generated_none h he, Mirrors, h.base, Path.spell_append_last, List.append_assoc]
  | some f =>
    obtain ⟨root', names, hr, hnames, rfl⟩ := hfolder f rfl
    have hway := h.isName_way (isName_append_generated h.isName_stem he)
    rw [generated_some h he hr hnames, Mirrors, Path.intercalate_append_last,
      Path.join_intercalate hr hnames hway (by simp)]
    exact ⟨rfl, d.liesAt_spell hr hr hnames hway (by simp)⟩

/-- A generated file is spelled from the names of its folder, the way and the stem with its
extension. -/
theorem exists_generated_eq_spell (h : Path.Cut s root (shared ++ rest) stem)
    (he : e ∈ generatedExtensions) {folder : Option String}
    (hfolder : ∀ f ∈ folder, Path.IsNormal f) :
    ∃ root', IsRoot root' ∧ (∀ n ∈ folder.elim shared Path.names, IsName n) ∧
      generated folder (Path.splitExtension s).1 ("/".intercalate (rest ++ [stem])) e =
        spell root' (folder.elim shared Path.names ++ (rest ++ [stem ++ e])) := by
  cases folder with
  | none => exact ⟨root, h.isRoot, h.isName_left, generated_none h he _⟩
  | some f =>
    obtain ⟨root', names, hr, hnames, rfl⟩ := hfolder f rfl
    rw [Option.elim_some, Path.names_spell_of_isName hr hnames]
    exact ⟨root', hr, hnames, generated_some h he hr hnames _⟩

private theorem names_generated (h : Path.Cut s root (shared ++ rest) stem)
    (he : e ∈ generatedExtensions)
    {folder : Option String} (hfolder : ∀ f ∈ folder, Path.IsNormal f) :
    Path.names (generated folder (Path.splitExtension s).1 ("/".intercalate (rest ++ [stem])) e) =
      folder.elim shared Path.names ++ rest ++ [stem ++ e] := by
  obtain ⟨root', hr, hnames, heq⟩ := exists_generated_eq_spell h he hfolder
  have hway := h.isName_way (isName_append_generated h.isName_stem he)
  rw [heq, List.append_assoc]
  exact Path.names_spell_of_isName hr (List.forall_mem_append.mpr ⟨hnames, hway⟩)

/-- **Two sources with a generated file in common** have the same names but for their
extensions. -/
theorem names_base_of_generated {t root' stem' e' : String} {rest' : List String}
    (h : Path.Cut s root (shared ++ rest) stem) (h' : Path.Cut t root' (shared ++ rest') stem')
    (he : e ∈ generatedExtensions) (he' : e' ∈ generatedExtensions)
    (hfolder : ∀ e, ∀ f ∈ l.folderFor e, Path.IsNormal f)
    (heq : generated (l.folderFor e) (Path.splitExtension s).1 ("/".intercalate (rest ++ [stem])) e
      = generated (l.folderFor e') (Path.splitExtension t).1
        ("/".intercalate (rest' ++ [stem'])) e') :
    Path.names (Path.splitExtension s).1 = Path.names (Path.splitExtension t).1 := by
  have hnames := congrArg Path.names heq
  rw [names_generated h he (hfolder e), names_generated h' he' (hfolder e')] at hnames
  -- the last names agree, so the extensions do, and with them the folders
  obtain ⟨hfront, hlast⟩ := List.append_inj' hnames rfl
  obtain ⟨rfl, rfl⟩ := Path.append_inj_of_suffix_free generatedExtensions_suffix_free he he'
    (List.singleton_inj.mp hlast)
  rw [h.names_base, h'.names_base, List.append_cancel_left hfront]

end Mirrors

/-! ### The root of the layout -/

/-- The folder that an option names. -/
def folderIn (p : Project) (options : Json.Fields) (name : String) : Option String :=
  match options.get? name with
  | some (.str value) =>
    if value = "" then none else some (Path.normalize (Path.join p.root value))
  | _ => none

theorem optionFolder_eq (p : Project) (d : Disk) (name : String) :
    p.optionFolder d name = p.options d >>= fun options => pure (p.folderIn options name) := by
  rw [optionFolder]
  congr
  funext options
  rw [folderIn]
  cases options.get? name with
  | none => rfl
  | some value => cases value <;> rfl

/-- The folder that an option names is normal. -/
theorem isNormal_of_optionFolder (hroot : Path.isAbsolute p.root = true) {cache : Cache}
    {name : String} {folder : Option String}
    (h : (p.optionFolder d name cache).2.result = .ok folder) :
    ∀ f ∈ folder, Path.IsNormal f := by
  rw [optionFolder_eq] at h
  obtain ⟨options, -, h⟩ := Query.result_bind_eq_ok_iff.mp h
  obtain rfl : p.folderIn options name = folder := Except.ok.inj h
  intro f hf
  rw [Option.mem_def, folderIn] at hf
  split at hf
  · next value hvalue =>
    have habs := Path.isAbsolute_join hroot value
    split at hf
    · cases hf
    · obtain rfl := Option.some.inj hf
      exact Path.exists_spell_of_normal (Path.isAbsolute_normalize habs)
        (Path.normalize_normalize habs)
  · cases hf

/-- A source lies below the root of the layout: its folder is `rest`, seen from there. -/
structure Below (rootDir s root : String) (shared rest : List String) (stem : String) : Prop where
  rootDir_eq : rootDir = spell "/" shared
  cut : Path.Cut s root (shared ++ rest) stem

/-- **Every source that is compiled** lies below the root of the layout. -/
theorem gives_rootDir_below {paths : List String} (hs : (p.sources d {}).2.result = .ok paths)
    (hnone : (p.optionFolder d "rootDir" {}).2.result = .ok none)
    (hcut : ∀ s ∈ paths, ∃ root folder stem, Path.Cut s root folder stem) :
    Gives p d (p.rootDir d) fun rootDir => ∃ shared, ∀ s ∈ paths,
      Sources.isDeclaration s = false →
        ∃ root rest stem, Below rootDir s root shared rest stem := by
  have hask := (likeness_transparent p d).ask_optionFolder "rootDir"
  refine .bind (.of_transparent hask hnone rfl) fun folder hfolder => ?_
  subst hfolder
  refine .bind (gives_sources hs) fun sources hsources => ?_
  subst hsources
  have hinput (s : String) (hmem : s ∈ sources) (hcompiled : Sources.isDeclaration s = false) :
      s ∈ sources.filter fun path => !Sources.isDeclaration path :=
    List.mem_filter.mpr ⟨hmem, by simp [hcompiled]⟩
  split
  · next hnil =>
    -- nothing is compiled, so nothing has to lie below the root
    refine .pure ⟨[], fun s hmem hcompiled => ?_⟩
    have hnone := hinput s hmem hcompiled
    rw [hnil] at hnone
    cases hnone
  · next hne =>
    have hfolders : ∀ folder ∈ (sources.filter fun path => !Sources.isDeclaration path).map
        Path.dirname, Path.IsNormal folder := by
      intro folder hfolder
      obtain ⟨s, hs, rfl⟩ := List.mem_map.mp hfolder
      obtain ⟨root, steps, stem, hcut⟩ := hcut s (List.mem_filter.mp hs).1
      exact ⟨root, steps, hcut.isRoot, hcut.isName_folder, hcut.dirname_eq⟩
    obtain ⟨shared, -, hcommon, hall⟩ :=
      Path.exists_common (by simpa using fun h => hne h) hfolders
    refine .pure ⟨shared, fun s hmem hcompiled => ?_⟩
    obtain ⟨root, folder, stem, hcut⟩ := hcut s hmem
    -- what is shared begins the folder of every source, and the rest is its way
    have hbegin := hall _ (List.mem_map_of_mem (hinput s hmem hcompiled))
    rw [hcut.dirname_eq, Path.names_spell_of_isName hcut.isRoot hcut.isName_folder] at hbegin
    obtain ⟨rest, rfl⟩ := hbegin
    exact ⟨root, rest, stem, hcommon, hcut⟩

section Below

variable {s root stem : String} {shared rest : List String}

/-- A source lies where its way leads to. -/
private theorem Below.liesAt (h : Below l.rootDir s root shared rest stem) (d : Disk) :
    d.LiesAt l.rootDir ("/".intercalate (rest ++ [stem]) ++ Path.extension s) s := by
  have hlies := d.liesAt_spell (.inl rfl) h.cut.isRoot h.cut.isName_left
    (h.cut.isName_way h.cut.isName_last) (by simp)
  rwa [← List.append_assoc, ← h.cut.spelled, ← h.rootDir_eq, ← Path.intercalate_append_last]
    at hlies

/-- A source that begins with one slash is spelled from the root of the layout and its way. -/
private theorem Below.eq_join (h : Below l.rootDir s root shared rest stem)
    (hroot : Path.rootOf s = "/") :
    s = Path.join l.rootDir ("/".intercalate (rest ++ [stem]) ++ Path.extension s) := by
  have hspelled := h.cut.spelled
  rw [← h.cut.rootOf_eq, hroot, List.append_assoc] at hspelled
  rw [h.rootDir_eq, Path.intercalate_append_last, Path.join_intercalate (.inl rfl)
    h.cut.isName_left (h.cut.isName_way h.cut.isName_last) (by simp)]
  exact hspelled

/-- The outputs of a source below the root of the layout. -/
private theorem Below.exists_outputs (h : Below l.rootDir s root shared rest stem) (hl : l.Of p d)
    (hsource : Sources.isSource s = true) (hcompiled : Sources.isDeclaration s = false) :
    ∃ ext, l.programExtension? (Path.extension s) = some ext ∧
      (p.outputs d s {}).2.result =
        .ok (l.files (Path.splitExtension s).1 ("/".intercalate (rest ++ [stem])) ext) := by
  obtain ⟨compiled, hlookup⟩ := Option.isSome_iff_exists.mp hsource
  obtain ⟨ext, hext⟩ : ∃ ext, l.programExtension? (Path.extension s) = some ext := by
    rw [Layout.programExtension?, hlookup, Option.map_some]
    exact ⟨_, rfl⟩
  refine ⟨ext, hext, result_outputs hl hcompiled hext ?_⟩
  rw [h.cut.base, h.rootDir_eq, List.append_assoc]
  exact (d.liesAt_spell (.inl rfl) h.cut.isRoot h.cut.isName_left
    (h.cut.isName_way h.cut.isName_stem) (by simp)).relative

end Below

/-! ### Where outputs lie -/

theorem Layout.isNormal_of_folderFor (hout : ∀ f ∈ l.out, Path.IsNormal f)
    (heither : ∀ f ∈ (l.declarations <|> l.out), Path.IsNormal f) (e : String) :
    ∀ f ∈ l.folderFor e, Path.IsNormal f := by
  rw [folderFor]
  split
  · exact hout
  · exact heither

/-- A source with a normal path is taken apart. -/
private theorem exists_cut_of_mem_sources (hcwd : Path.isAbsolute d.cwd = true) (hd : d.WellNamed)
    (hp : p.OpenOn d) {paths : List String} (hs : (p.sources d {}).2.result = .ok paths)
    {s : String} (hmem : s ∈ paths) (hnormal : Path.normalize s = s) :
    ∃ root folder stem, Path.Cut s root folder stem := by
  obtain ⟨-, -, habs, -⟩ := forall_normal_iff_staysDown hcwd hd hp hs
  refine Path.exists_cut (habs s hmem) hnormal fun hempty => ?_
  -- no source is without an extension
  have hsource := isSource_of_mem_sources hd hs hmem
  rw [Sources.isSource, hempty] at hsource
  cases hsource

/-- A project without an option for the root of its layout has a layout, and every source that is
compiled lies below its root. -/
theorem exists_layout (hcwd : Path.isAbsolute d.cwd = true) (hd : d.WellNamed) (hp : p.OpenOn d)
    {paths : List String} (hs : (p.sources d {}).2.result = .ok paths)
    (hnormal : ∀ s ∈ paths, Path.normalize s = s)
    (hnone : (p.optionFolder d "rootDir" {}).2.result = .ok none) :
    ∃ l : Layout, l.Of p d ∧ (∀ f ∈ l.out, Path.IsNormal f) ∧
      (∀ f ∈ (l.declarations <|> l.out), Path.IsNormal f) ∧
      ∃ shared, ∀ s ∈ paths, Sources.isDeclaration s = false →
        ∃ root rest stem, Below l.rootDir s root shared rest stem := by
  have hroot := hp.isAbsolute_root hcwd
  have hoptions := hnone
  rw [optionFolder_eq] at hoptions
  obtain ⟨options, ho, -⟩ := Query.result_bind_eq_ok_iff.mp hoptions
  obtain ⟨out, hout, -⟩ := (gives_optionFolder ho "outDir").result_eq
  obtain ⟨declarations, hdeclarations, -⟩ := (gives_optionFolder ho "declarationDir").result_eq
  obtain ⟨rootDir, hrootDir, hbelow⟩ := (gives_rootDir_below hs hnone fun s hmem =>
    exists_cut_of_mem_sources hcwd hd hp hs hmem (hnormal s hmem)).result_eq
  have hisOut := isNormal_of_optionFolder hroot hout
  have heither : ∀ f ∈ (declarations <|> out), Path.IsNormal f := by
    cases declarations with
    | none => exact hisOut
    | some folder => exact isNormal_of_optionFolder hroot hdeclarations
  rw [← outDir] at hout
  rw [← declarationDir] at hdeclarations
  exact ⟨⟨options, rootDir, out, declarations⟩, ⟨ho, hrootDir, hout, hdeclarations⟩, hisOut,
    heither, hbelow⟩

private theorem result_outputs_of_isDeclaration {s : String} (h : Sources.isDeclaration s = true) :
    (p.outputs d s {}).2.result = .ok [] := by
  rw [outputs, if_pos h]
  rfl

/-- Every output of a source is a generated file with one of the extensions of such files. -/
theorem exists_generated_of_mem_outputs (hl : l.Of p d) {shared : List String} {s : String}
    (hsource : Sources.isSource s = true)
    (hbelow : Sources.isDeclaration s = false →
      ∃ root rest stem, Below l.rootDir s root shared rest stem)
    {files : List String} (hfiles : (p.outputs d s {}).2.result = .ok files) {file : String}
    (hfile : file ∈ files) :
    ∃ root rest stem, Path.Cut s root (shared ++ rest) stem ∧ ∃ e ∈ generatedExtensions,
      file = generated (l.folderFor e) (Path.splitExtension s).1
        ("/".intercalate (rest ++ [stem])) e := by
  cases hcompiled : Sources.isDeclaration s with
  | true =>
    obtain rfl := Except.ok.inj ((result_outputs_of_isDeclaration hcompiled).symm.trans hfiles)
    cases hfile
  | false =>
    obtain ⟨root, rest, stem, hbelow⟩ := hbelow hcompiled
    obtain ⟨ext, hext, houtputs⟩ := hbelow.exists_outputs hl hsource hcompiled
    obtain rfl := Except.ok.inj (houtputs.symm.trans hfiles)
    exact ⟨root, rest, stem, hbelow.cut, mem_files (mem_programExtensions hext) hfile⟩

/-- **Outputs mirror the sources.** Without an option for the root of the layout every source that
is compiled lies below that root, its program lies below the output folder at the end of the same
way, its declarations below their folder, and what is generated in no folder stands beside the
source. Sources that only declare have no outputs. Two sources have an output in common only if they
have the same names but for their extensions, and then they are equal but for their extensions
unless one of them begins with two slashes. -/
theorem outputs_mirror (hcwd : Path.isAbsolute d.cwd = true) (hd : d.WellNamed) (hp : p.OpenOn d)
    {paths : List String} (hs : (p.sources d {}).2.result = .ok paths)
    (hnormal : ∀ s ∈ paths, Path.normalize s = s)
    (hnone : (p.optionFolder d "rootDir" {}).2.result = .ok none) :
    ∃ l : Layout, l.Of p d ∧
      (∀ s ∈ paths, Sources.isDeclaration s = true → (p.outputs d s {}).2.result = .ok []) ∧
      (∀ s ∈ paths, Sources.isDeclaration s = false → ∃ way ext program declaration,
        d.LiesAt l.rootDir (way ++ Path.extension s) s ∧
        (Path.rootOf s = "/" → s = Path.join l.rootDir (way ++ Path.extension s)) ∧
        l.programExtension? (Path.extension s) = some ext ∧
        (p.outputs d s {}).2.result =
          .ok (program :: if l.emitsDeclarations then [declaration] else []) ∧
        Mirrors d s way ext program l.out ∧
        Mirrors d s way (declarationExtension ext) declaration (l.declarations <|> l.out)) ∧
      ∀ s ∈ paths, ∀ t ∈ paths, ∀ files files' file,
        (p.outputs d s {}).2.result = .ok files → (p.outputs d t {}).2.result = .ok files' →
        file ∈ files → file ∈ files' →
        Path.names (Path.splitExtension s).1 = Path.names (Path.splitExtension t).1 ∧
        (Path.rootOf s = Path.rootOf t →
          (Path.splitExtension s).1 = (Path.splitExtension t).1) := by
  have hsource (s : String) (hmem : s ∈ paths) := isSource_of_mem_sources hd hs hmem
  obtain ⟨l, hl, hout, heither, shared, hbelow⟩ := exists_layout hcwd hd hp hs hnormal hnone
  refine ⟨l, hl, fun s _ h => result_outputs_of_isDeclaration h, fun s hmem hcompiled => ?_, ?_⟩
  · obtain ⟨root, rest, stem, hbelow⟩ := hbelow s hmem hcompiled
    obtain ⟨ext, hext, houtputs⟩ := hbelow.exists_outputs hl (hsource s hmem) hcompiled
    refine ⟨_, ext, _, _, hbelow.liesAt d, hbelow.eq_join, hext, houtputs, ?_, ?_⟩
    · exact mirrors_generated d hbelow.cut (List.mem_append_left _ (mem_programExtensions hext))
        hout
    · exact mirrors_generated d hbelow.cut (List.mem_append_right _ (declarationExtension_mem ext))
        heither
  · intro s hmem t hmem' files files' file hfiles hfiles' hin hin'
    obtain ⟨root, rest, stem, hcut, e, he, hfile⟩ :=
      exists_generated_of_mem_outputs hl (hsource s hmem) (hbelow s hmem) hfiles hin
    obtain ⟨root', rest', stem', hcut', e', he', hfile'⟩ :=
      exists_generated_of_mem_outputs hl (hsource t hmem') (hbelow t hmem') hfiles' hin'
    have hnames := names_base_of_generated hcut hcut' he he'
      (Layout.isNormal_of_folderFor hout heither) (hfile.symm.trans hfile')
    refine ⟨hnames, fun hroots => ?_⟩
    -- names leave open only how a path begins
    rw [hcut.names_base, hcut'.names_base] at hnames
    rw [hcut.rootOf_eq, hcut'.rootOf_eq] at hroots
    rw [hcut.base, hcut'.base, hnames, hroots]

/-! ### Two packages -/

/-- The files that a configuration lists are its sources, if it has no list of patterns. -/
theorem result_sources_of_files {config : Json.Fields}
    (hconfig : (Config.loadChain d p.compilerPath p.strict).result = .ok config)
    (hfiles : (listSetting config "files").isSome = true)
    (hpatterns : (listSetting config "include").isNone = true) {named : List String}
    (hnamed : (gather (p.fileEntry d) ((listSetting config "files").getD [])).result = .ok named) :
    (p.sources d {}).2.result =
      .ok (Sources.sorted (named.eraseDups.filter Sources.isSource)) := by
  have hconfigured : (p.configuredSources d config).result =
      .ok (some (Sources.sorted (named.eraseDups.filter Sources.isSource))) := by
    obtain ⟨files, hsome⟩ := Option.isSome_iff_exists.mp hfiles
    rw [hsome] at hnamed
    rw [configuredSources, hsome, Option.isNone_iff_eq_none.mp hpatterns]
    refine Outcome.result_andThen_eq_ok_iff.mpr ⟨named, hnamed, ?_⟩
    refine Outcome.result_andThen_eq_ok_iff.mpr ⟨[], rfl, ?_⟩
    rw [List.append_nil]
    rfl
  have hcompiler : (p.compiler d {}).2.result = .ok config := by
    rw [compiler, Query.snd_cached rfl, Query.lift_apply, hconfig]
  rw [sources, Query.snd_cached rfl, loadSources]
  refine Query.result_bind_eq_ok_iff.mpr ⟨config, hcompiler, ?_⟩
  refine Query.result_bind_eq_ok_iff.mpr ⟨_, hconfigured, ?_⟩
  rfl

/-- The caches once the configuration of the compiler and the sources are loaded. -/
theorem consistent_of_loaded {config : Json.Fields} {paths : List String}
    (hconfig : (Config.loadChain d p.compilerPath p.strict).result = .ok config)
    (hs : (p.sources d {}).2.result = .ok paths) :
    Consistent p d { compiler := some config, sources := some paths } := by
  rw [sources, Query.snd_cached rfl] at hs
  exact { Consistent.empty p d with
    compiler := fun h => Option.some.inj h ▸ hconfig
    sources := fun h => Option.some.inj h ▸ hs }

/-- A package `p` with an output folder, beside a source that the package at the root lists under
two spellings. -/
def mirrored : Disk where
  entries := [
    ("a.ts", .file ⟨[], none, none⟩),
    ("p", .folder [
      ("src", .folder [("a.tsx", .file ⟨[], none, none⟩)]),
      ("tsconfig.json", .file ⟨Utf8.encode
        "\x7b\"compilerOptions\":\x7b\"outDir\":\"lib\"\x7d\x7d", none, none⟩)]),
    ("tsconfig.json", .file ⟨Utf8.encode
      "\x7b\"files\":[\"//a.ts\",\"a.ts\"],\"compilerOptions\":\x7b\"outDir\":\"lib\"\x7d\x7d",
      none, none⟩)]
  cwd := "/"
  limits := .uniform 8

/-- The package at a folder of the disk. -/
def mirroring (folder : String) : Project :=
  openAt mirrored folder (some true) none

/-- The source of the package has its place below the root of the layout, and its outputs. -/
theorem outputs_mirror_package :
    ((mirroring "p").sources mirrored {}).2.result = .ok ["/p/src/a.tsx"] ∧
    ∃ l : Layout, l.Of (mirroring "p") mirrored ∧ ∃ way ext program declaration,
      "/p/src/a.tsx" = Path.join l.rootDir (way ++ ".tsx") ∧
      ((mirroring "p").outputs mirrored "/p/src/a.tsx" {}).2.result =
        .ok (program :: if l.emitsDeclarations then [declaration] else []) ∧
      Mirrors mirrored "/p/src/a.tsx" way ext program l.out := by
  have hsources : ((mirroring "p").sources mirrored {}).2.result = .ok ["/p/src/a.tsx"] :=
    Except.eq_ok_of_exists (by decide +kernel)
  have hcwd : Path.isAbsolute mirrored.cwd = true := by decide
  have hnamed : mirrored.WellNamed := by decide +kernel
  have hopen : (mirroring "p").OpenOn mirrored := ⟨"p", _, _, rfl⟩
  have hnormal : ∀ s ∈ ["/p/src/a.tsx"], Path.normalize s = s := by decide +kernel
  have hnone : ((mirroring "p").optionFolder mirrored "rootDir" {}).2.result = .ok none :=
    Except.eq_ok_of_exists (by decide +kernel)
  obtain ⟨l, hl, -, hmirror, -⟩ := outputs_mirror hcwd hnamed hopen hsources hnormal hnone
  obtain ⟨way, ext, program, declaration, -, hjoin, -, houtputs, hprogram, -⟩ :=
    hmirror "/p/src/a.tsx" List.mem_cons_self (by decide +kernel)
  have hext : Path.extension "/p/src/a.tsx" = ".tsx" := by decide +kernel
  rw [hext] at hjoin
  exact ⟨hsources, l, hl, way, ext, program, declaration, hjoin (by decide +kernel), houtputs,
    hprogram⟩

/-- Two normal sources that differ not only in their extensions share an output: one of them begins
with two slashes. -/
theorem outputs_doubled :
    ((mirroring "/").sources mirrored {}).2.result = .ok ["//a.ts", "/a.ts"] ∧
    Path.normalize "//a.ts" = "//a.ts" ∧ Path.normalize "/a.ts" = "/a.ts" ∧
    ((mirroring "/").optionFolder mirrored "rootDir" {}).2.result = .ok none ∧
    ((mirroring "/").outputs mirrored "//a.ts" {}).2.result = .ok ["/lib/a.js"] ∧
    ((mirroring "/").outputs mirrored "/a.ts" {}).2.result = .ok ["/lib/a.js"] ∧
    (Path.splitExtension "//a.ts").1 ≠ (Path.splitExtension "/a.ts").1 := by
  -- the configuration is loaded once, and the rest is told from the caches
  have hloaded : ∃ config, (Config.loadChain mirrored (mirroring "/").compilerPath true).result =
      .ok config ∧ (listSetting config "files").isSome = true ∧
      (listSetting config "include").isNone = true ∧
      (∃ named, (gather ((mirroring "/").fileEntry mirrored)
        ((listSetting config "files").getD [])).result = .ok named ∧
        named.eraseDups.filter Sources.isSource = ["//a.ts", "/a.ts"]) ∧
      (∃ folder, ((mirroring "/").optionFolder mirrored "rootDir"
        { compiler := some config, sources := some ["//a.ts", "/a.ts"] }).2.result = .ok folder ∧
        folder = none) ∧
      ∀ s ∈ ["//a.ts", "/a.ts"], ∃ files, ((mirroring "/").outputs mirrored s
        { compiler := some config, sources := some ["//a.ts", "/a.ts"] }).2.result = .ok files ∧
        files = ["/lib/a.js"] := by
    decide +kernel
  obtain ⟨config, hconfig, hfiles, hpatterns, ⟨named, hnamed, hnames⟩, hnone, houtputs⟩ := hloaded
  -- the files are listed in order, so sorting keeps them
  have hsorted : Sources.sorted ["//a.ts", "/a.ts"] = ["//a.ts", "/a.ts"] :=
    List.mergeSort_of_pairwise (by decide +kernel)
  have hsources := result_sources_of_files hconfig hfiles hpatterns hnamed
  rw [hnames, hsorted] at hsources
  have hcache := consistent_of_loaded hconfig hsources
  have likeness := likeness_transparent (mirroring "/") mirrored
  refine ⟨hsources, by decide +kernel, by decide +kernel, ?_, ?_, ?_, by decide +kernel⟩
  · rw [← (likeness.ask_optionFolder "rootDir" _ hcache).2]
    exact Except.eq_ok_of_exists hnone
  · rw [← (likeness.ask_outputs "//a.ts" _ hcache).2]
    exact Except.eq_ok_of_exists (houtputs "//a.ts" (by decide))
  · rw [← (likeness.ask_outputs "/a.ts" _ hcache).2]
    exact Except.eq_ok_of_exists (houtputs "/a.ts" (by decide))

end Project

end ApiOutline
