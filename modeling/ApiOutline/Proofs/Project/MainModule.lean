import ApiOutline.Proofs.Path.Folder
import ApiOutline.Proofs.Project.Outputs
import ApiOutline.Proofs.Project.Answers
import ApiOutline.Proofs.Text.Symbols

/-!
# The main module

An entry point without extension stands for three files, and the main module is the first source, in
the order of paths, from which one of them is compiled. That it is the right one rests on how
sources are ordered. The file itself is never compiled, since what is generated has an extension. A
source that is compiled to the entry point with `.js` added has the same path up to its extension as
the folder of a source that is compiled to `index.js` in the folder of that name, and a point comes
before a slash, so the first one is found first (`precedes_index`).

That is so for the names of paths, and for the paths of two sources that begin with the same number
of slashes.
-/

namespace ApiOutline

open ApiOutline.Path (IsStep IsName IsRoot spell)

namespace Project

variable {p : Project} {d : Disk}

/-! ### Sources in order -/

/-- **Sources are sorted.** -/
theorem pairwise_of_sources {paths : List String} (h : (p.sources d {}).2.result = .ok paths) :
    paths.Pairwise fun s t => Text.precedes s t = true := by
  obtain ⟨config, -, hnamed | ⟨-, excluded, hfound⟩⟩ := exists_config_of_sources h
  · rw [configuredSources] at hnamed
    split at hnamed
    · cases hnamed
    · obtain ⟨_, -, hnamed⟩ := Outcome.result_andThen_eq_ok_iff.mp hnamed
      obtain ⟨_, -, hnamed⟩ := Outcome.result_andThen_eq_ok_iff.mp hnamed
      obtain rfl := Option.some.inj (Except.ok.inj hnamed)
      exact Text.pairwise_mergeSort _
  · rw [Sources.discover] at hfound
    obtain ⟨entries, -, hfound⟩ := Outcome.result_andThen_eq_ok_iff.mp hfound
    dsimp only at hfound
    split at hfound
    · cases hfound
    · obtain rfl := Except.ok.inj hfound
      exact Text.pairwise_mergeSort _

/-- What is found in a sorted list comes before everything else that could be. -/
private theorem precedes_of_find? {paths : List String} {q : String → Bool}
    (h : paths.Pairwise fun s t => Text.precedes s t = true) {first s : String}
    (hfind : paths.find? q = some first) (hs : s ∈ paths) (hq : q s = true) :
    s = first ∨ Text.precedes first s = true := by
  obtain ⟨-, before, after, rfl, hbefore⟩ := List.find?_eq_some_iff_append.mp hfind
  rcases List.mem_append.mp hs with hs | hs
  · have hnot := hbefore s hs
    rw [hq] at hnot
    cases hnot
  · rcases List.mem_cons.mp hs with rfl | hs
    · exact .inl rfl
    · exact .inr (List.rel_of_pairwise_cons (List.pairwise_append.mp h).2.1 hs)

end Project

/-! ### Stems -/

namespace Path

variable {root : String} {steps : List String}

private theorem basename_spell (hr : IsRoot root) {name : String} (h : '/' ∉ name.toList) :
    basename (spell root (steps ++ [name])) = name := by
  obtain ⟨front, hfront⟩ := exists_toList_spell hr steps
  exact basename_of_toList front (hfront name) h

/-- The stem of a path with an extension is not made of points alone. -/
private theorem Cut.exists_ne_point {p stem : String} {folder : List String}
    (h : Cut p root folder stem)
    (hext : extension p ≠ "") : ∃ c ∈ stem.toList, c ≠ '.' := by
  have hname : basename p = stem ++ extension p := by
    conv_lhs => rw [h.spelled]
    exact basename_spell h.isRoot h.isName_last.no_slash
  cases hcut : Text.cutLast '.' (basename p).toList with
  | none =>
    refine absurd ?_ hext
    simp only [extension, splitExtension, hcut]
  | some parts =>
    obtain ⟨before, after⟩ := parts
    by_cases hpoints : before.all (· == '.') = true
    · refine absurd ?_ hext
      simp only [extension, splitExtension, hcut, hpoints, if_true]
    · have hafter : extension p = String.ofList ('.' :: after) := by
        simp only [extension, splitExtension, hcut, if_neg hpoints]
      have hparts := cutLast_eq_some hcut
      rw [hname, hafter, String.toList_append, String.toList_ofList] at hparts
      rw [List.append_cancel_right hparts]
      simpa using hpoints

/-- What begins with more than points and goes on with a point has an extension. -/
theorem extension_ne_empty {p name : String} {before after : List Char} (hbase : basename p = name)
    (hname : name.toList = before ++ '.' :: after) (hafter : '.' ∉ after)
    (hbefore : ∃ c ∈ before, c ≠ '.') : extension p ≠ "" := by
  have hpoints : ¬before.all (· == '.') = true := by simpa using hbefore
  have hcut : Text.cutLast '.' (basename p).toList = some (before, after) := by
    rw [hbase, hname, cutLast_append hafter]
  have hext : extension p = String.ofList ('.' :: after) := by
    simp only [extension, splitExtension, hcut, if_neg hpoints]
  rw [hext]
  intro hempty
  have hlist := congrArg String.toList hempty
  simp at hlist

end Path

namespace Text

/-- **A point comes before a slash** where the texts are the same before. -/
theorem precedes_slash_point (t x y : String) :
    precedes (t ++ "/" ++ x) (t ++ "." ++ y) = false := by
  have hsymbols (c : Char) (hc : c.toNat < 0x80) (z : String) :
      symbols (t ++ String.singleton c ++ z) = symbols t ++ symbolsOf (c :: z.toList) := by
    rw [symbols, String.toList_append, String.toList_append, String.toList_singleton,
      List.append_assoc, List.singleton_append, symbolsOf_append_cons hc]
    rfl
  have hcons (c : Char) (hc : c.toNat < 0x80) (cs : List Char) :
      symbolsOf (c :: cs) = .char c :: symbolsOf cs := by
    rw [symbolsOf.eq_def]
    simp only [ne_mark_of_ascii hc, if_false]
  have hslash : symbols (t ++ "/" ++ x) = _ := hsymbols '/' (by decide) x
  have hpoint : symbols (t ++ "." ++ y) = _ := hsymbols '.' (by decide) y
  rw [precedes, hslash, hpoint, precedesOn_append_append, hcons '/' (by decide),
    hcons '.' (by decide)]
  rfl

end Text

namespace Project

variable {p : Project} {d : Disk}

/-! ### What is generated -/

section Generated

variable {l : Layout} {s root stem e : String} {shared rest : List String}

/-- What is generated has an extension. -/
private theorem extension_generated (h : Path.Cut s root (shared ++ rest) stem)
    (hext : Path.extension s ≠ "") (he : e ∈ generatedExtensions) {folder : Option String}
    (hfolder : ∀ f ∈ folder, Path.IsNormal f) :
    Path.extension
      (generated folder (Path.splitExtension s).1 ("/".intercalate (rest ++ [stem])) e) ≠ "" := by
  obtain ⟨root', hr, -, heq⟩ := exists_generated_eq_spell h he hfolder
  have hname := isName_append_generated h.isName_stem he
  obtain ⟨before, after, hparts, hafter⟩ : ∃ before after : List Char,
      e.toList = before ++ '.' :: after ∧ '.' ∉ after := by
    have hall : ∀ e ∈ generatedExtensions, ∃ parts ∈ Text.cutLast '.' e.toList,
        '.' ∉ parts.2 := by
      decide
    obtain ⟨⟨before, after⟩, hcut, hafter⟩ := hall e he
    exact ⟨before, after, Path.cutLast_eq_some hcut, hafter⟩
  obtain ⟨c, hc, hne⟩ := h.exists_ne_point hext
  rw [heq, ← List.append_assoc]
  refine Path.extension_ne_empty (Path.basename_spell hr hname.no_slash) ?_ hafter
    ⟨c, List.mem_append_left before hc, hne⟩
  rw [String.toList_append, hparts, List.append_assoc]

/-- A file with `.js` added is generated from a source whose way leads to that file. -/
private theorem exists_eq_spell_of_generated (h : Path.Cut s root (shared ++ rest) stem)
    (he : e ∈ generatedExtensions) (hfolder : ∀ e, ∀ f ∈ l.folderFor e, Path.IsNormal f)
    {t : String} (heq : t ++ ".js" = generated (l.folderFor e) (Path.splitExtension s).1
      ("/".intercalate (rest ++ [stem])) e) :
    ∃ root', IsRoot root' ∧ (∀ n ∈ l.out.elim shared Path.names ++ (rest ++ [stem]), IsName n) ∧
      t = spell root' (l.out.elim shared Path.names ++ (rest ++ [stem])) := by
  obtain ⟨root', hr, hnames, hspell⟩ := exists_generated_eq_spell h he (hfolder e)
  rw [hspell, ← List.append_assoc, ← Path.spell_append_last] at heq
  obtain ⟨rfl, rfl⟩ :=
    Path.append_inj_of_suffix_free generatedExtensions_suffix_free (by decide) he heq
  refine ⟨root', hr, List.forall_mem_append.mpr ⟨hnames, h.isName_way h.isName_stem⟩, ?_⟩
  rw [List.append_assoc]
  rfl

end Generated

/-! ### Sources of an entry point -/

section Sources

variable {paths : List String} {l : Layout} {shared : List String}

/-- The extension of a source begins with a point. -/
private theorem exists_extension_eq {s : String} (h : Sources.isSource s = true) :
    ∃ y, Path.extension s = "." ++ y := by
  obtain ⟨compiled, hlookup⟩ := Option.isSome_iff_exists.mp h
  obtain ⟨before, after, hparts, -⟩ := List.lookup_eq_some_iff.mp hlookup
  have hmem : (Path.extension s, compiled) ∈ Sources.compiledExtensions := by simp [hparts]
  have hall : ∀ pair ∈ Sources.compiledExtensions,
      pair.1 = "." ++ String.ofList (pair.1.toList.drop 1) := by
    decide
  exact ⟨_, hall _ hmem⟩

/-- The file `index.js` in a folder is the file `index` there with `.js` added. -/
private theorem join_index {root : String} {names : List String} (hr : IsRoot root)
    (hnames : ∀ n ∈ names, IsName n) :
    Path.join (spell root names) "index.js" = spell root (names ++ ["index"]) ++ ".js" := by
  have hindex : IsStep "index.js" := ⟨by decide, by decide, by decide⟩
  rw [Path.join_spell hr (fun n hn => (hnames n hn).toIsStep) hindex, Path.spell_append_last]
  rfl

/-- The sources of a project whose layout is known: each is taken apart from the root of the layout
on, and the folders of generated files are normal. -/
structure LaidOut (p : Project) (d : Disk) (paths : List String) (l : Layout)
    (shared : List String) : Prop where
  of : l.Of p d
  isNormal : ∀ e, ∀ f ∈ l.folderFor e, Path.IsNormal f
  isSource : ∀ s ∈ paths, Sources.isSource s = true
  below : ∀ s ∈ paths, Sources.isDeclaration s = false →
    ∃ root rest stem, Below l.rootDir s root shared rest stem

namespace LaidOut

variable (h : LaidOut p d paths l shared) {s t : String} {files files' : List String}

include h

theorem extension_ne_empty (hs : s ∈ paths) : Path.extension s ≠ "" := by
  obtain ⟨y, hy⟩ := exists_extension_eq (h.isSource s hs)
  rw [hy]
  intro hempty
  have hlist := congrArg String.toList hempty
  simp at hlist

/-- What is compiled from a source has an extension. -/
private theorem extension_of_mem_outputs (hs : s ∈ paths)
    (hfiles : (p.outputs d s {}).2.result = .ok files) {file : String} (hfile : file ∈ files) :
    Path.extension file ≠ "" := by
  obtain ⟨root, rest, stem, hcut, e, he, rfl⟩ :=
    exists_generated_of_mem_outputs h.of (h.isSource s hs) (h.below s hs) hfiles hfile
  exact extension_generated hcut (h.extension_ne_empty hs) he (h.isNormal e)

/-- **A source that is compiled** to a file with `.js` added has the names of that file as its own,
up to its extension, from the root of the layout on. -/
theorem exists_cut (hs : s ∈ paths) (hfiles : (p.outputs d s {}).2.result = .ok files)
    {file : String} (hfile : file ++ ".js" ∈ files) :
    ∃ root rest stem root', Path.Cut s root (shared ++ rest) stem ∧ IsRoot root' ∧
      (∀ n ∈ l.out.elim shared Path.names ++ (rest ++ [stem]), IsName n) ∧
      file = spell root' (l.out.elim shared Path.names ++ (rest ++ [stem])) := by
  obtain ⟨root, rest, stem, hcut, e, he, heq⟩ :=
    exists_generated_of_mem_outputs h.of (h.isSource s hs) (h.below s hs) hfiles hfile
  obtain ⟨root', hr, hnames, hspell⟩ := exists_eq_spell_of_generated hcut he h.isNormal heq
  exact ⟨root, rest, stem, root', hcut, hr, hnames, hspell⟩

/-- Where one source is compiled to a file with `.js` added and another one to `index.js` in the
folder of that name, the first one lies beside the folder of the second one and has its name. -/
private theorem exists_cut_index (hs : s ∈ paths) (ht : t ∈ paths)
    (hfiles : (p.outputs d s {}).2.result = .ok files)
    (hfiles' : (p.outputs d t {}).2.result = .ok files') {m : String} (hjs : m ++ ".js" ∈ files)
    (hindex : Path.join m "index.js" ∈ files') :
    ∃ root root' folder stem, Path.Cut s root folder stem ∧
      Path.Cut t root' (folder ++ [stem]) "index" := by
  obtain ⟨root, rest, stem, rootM, hcut, hr, hnames, rfl⟩ := h.exists_cut hs hfiles hjs
  rw [join_index hr hnames] at hindex
  obtain ⟨root', rest', stem', rootM', hcut', hr', hnames', heq⟩ := h.exists_cut ht hfiles' hindex
  have hwhole : ∀ n ∈ l.out.elim shared Path.names ++ (rest ++ [stem]) ++ ["index"], IsName n :=
    List.forall_mem_append.mpr ⟨hnames, by
      simpa using (⟨⟨by decide, by decide, by decide⟩, by decide⟩ : IsName "index")⟩
  have hsame := congrArg Path.names heq
  rw [Path.names_spell_of_isName hr hwhole, Path.names_spell_of_isName hr' hnames',
    List.append_assoc] at hsame
  obtain ⟨rfl, hlast⟩ := List.append_inj' (List.append_cancel_left hsame) rfl
  obtain rfl := List.singleton_inj.mp hlast
  exact ⟨root, root', shared ++ rest, stem, hcut, by rwa [List.append_assoc]⟩

/-- No source is compiled to both. -/
private theorem index_not_mem (hs : s ∈ paths) (hfiles : (p.outputs d s {}).2.result = .ok files)
    {m : String} (hjs : m ++ ".js" ∈ files) : Path.join m "index.js" ∉ files := by
  intro hindex
  obtain ⟨root, root', folder, stem, hcut, hcut'⟩ :=
    h.exists_cut_index hs hs hfiles hfiles hjs hindex
  have hlength := congrArg List.length (hcut.names_base.symm.trans hcut'.names_base)
  simp at hlength

/-- **The source beside the folder comes first**, unless one of the two begins with two slashes. -/
theorem precedes_index (hs : s ∈ paths) (ht : t ∈ paths)
    (hfiles : (p.outputs d s {}).2.result = .ok files)
    (hfiles' : (p.outputs d t {}).2.result = .ok files') {m : String} (hjs : m ++ ".js" ∈ files)
    (hindex : Path.join m "index.js" ∈ files') (hroots : Path.rootOf s = Path.rootOf t) :
    Text.precedes t s = false := by
  obtain ⟨root, root', folder, stem, hcut, hcut'⟩ :=
    h.exists_cut_index hs ht hfiles hfiles' hjs hindex
  rw [hcut.rootOf_eq, hcut'.rootOf_eq] at hroots
  obtain ⟨y, hy⟩ := exists_extension_eq (h.isSource s hs)
  have hspell := hcut.spelled
  rw [← Path.spell_append_last, hy, ← String.append_assoc] at hspell
  have hspell' := hcut'.spelled
  rw [Path.spell_append_singleton _ (by simp), ← hroots] at hspell'
  rw [hspell, hspell']
  exact Text.precedes_slash_point _ _ _

end LaidOut

/-- Where something is compiled the options can be told, and so can the root of the layout. -/
private theorem optionFolder_eq_none
    (hnone : ∀ folder, (p.optionFolder d "rootDir" {}).2.result ≠ .ok (some folder)) {s : String}
    {files : List String} (hfiles : (p.outputs d s {}).2.result = .ok files) {file : String}
    (hfile : file ∈ files) : (p.optionFolder d "rootDir" {}).2.result = .ok none := by
  obtain ⟨options, ho⟩ : ∃ options, (p.options d {}).2.result = .ok options := by
    revert hfiles
    rw [outputs]
    split
    · rintro ⟨⟩
      cases hfile
    · dsimp only
      cases Sources.compiledExtensions.lookup (Path.splitExtension s).2 with
      | none =>
        rintro ⟨⟩
        cases hfile
      | some compiled =>
        dsimp only
        intro hfiles
        obtain ⟨options, ho, -⟩ := Query.result_bind_eq_ok_iff.mp hfiles
        exact ⟨options, ho⟩
  obtain ⟨folder, hfolder, -⟩ := (gives_optionFolder ho "rootDir").result_eq
  cases folder with
  | none => exact hfolder
  | some folder => exact absurd hfolder (hnone folder)

/-- A project without an option for the root of its layout is laid out. -/
private theorem exists_laidOut (hcwd : Path.isAbsolute d.cwd = true) (hd : d.WellNamed)
    (hp : p.OpenOn d) (hs : (p.sources d {}).2.result = .ok paths)
    (hnormal : ∀ s ∈ paths, Path.normalize s = s)
    (hnone : (p.optionFolder d "rootDir" {}).2.result = .ok none) :
    ∃ l shared, LaidOut p d paths l shared := by
  obtain ⟨l, hl, hout, heither, shared, hbelow⟩ := exists_layout hcwd hd hp hs hnormal hnone
  exact ⟨l, shared, hl, Layout.isNormal_of_folderFor hout heither,
    fun s hmem => isSource_of_mem_sources hd hs hmem, hbelow⟩

end Sources

/-! ### Looking for the main module -/

/-- One query after another is answered as if each were the first. -/
private theorem Transparent.exists_step {α β : Type} {q : Query α} {f : α → Query β} {cache : Cache}
    {b : β}
    (hq : Transparent p d q) (hcache : Consistent p d cache)
    (h : ((q >>= f) cache).2.result = .ok b) :
    ∃ a cache', Consistent p d cache' ∧ (q {}).2.result = .ok a ∧
      (f a cache').2.result = .ok b := by
  obtain ⟨a, ha, hb⟩ := Query.result_bind_eq_ok_iff.mp h
  obtain ⟨hcache', hsame⟩ := hq cache hcache
  exact ⟨a, _, hcache', hsame ▸ ha, hb⟩

private theorem transparent_outputs (s : String) : Transparent p d (p.outputs d s) :=
  (likeness_transparent p d).ask_outputs s

private theorem transparent_optionFolder (name : String) :
    Transparent p d (p.optionFolder d name) :=
  (likeness_transparent p d).ask_optionFolder name

private theorem transparent_mainFile : Transparent p d (p.mainFile d) :=
  (likeness_transparent p d).ask_mainFile

private theorem transparent_mainModuleEntry : Transparent p d (p.mainModuleEntry d) :=
  (likeness_transparent p d).ask_mainModuleEntry

private theorem emits_iff {candidates : List String} {s : String} : p.emits d candidates s = true ↔
    ∃ files, (p.outputs d s {}).2.result = .ok files ∧ ∃ file ∈ files, file ∈ candidates := by
  rw [emits]
  cases (p.outputs d s {}).2.result with
  | error e => simp
  | ok files => simp

/-- **The first source** that emits a candidate is the one that is found. -/
theorem eq_find?_of_firstEmitting {candidates among : List String} {cache : Cache}
    (hcache : Consistent p d cache) {first : Option String}
    (h : (p.firstEmitting d candidates among cache).2.result = .ok first) :
    first = among.find? (p.emits d candidates) := by
  induction among generalizing cache with
  | nil => exact (Except.ok.inj h).symm
  | cons path rest ih =>
    rw [firstEmitting] at h
    obtain ⟨files, cache', hcache', hfiles, h⟩ := (transparent_outputs path).exists_step hcache h
    have hemits : p.emits d candidates path = files.any candidates.contains := by
      rw [emits, hfiles]
    rw [List.find?_cons, hemits]
    cases hany : files.any candidates.contains with
    | true =>
      rw [if_pos hany] at h
      exact (Except.ok.inj h).symm
    | false =>
      rw [if_neg (by simp [hany])] at h
      exact ih hcache' h

/-- The entry of a normal source is its own, with its outputs. -/
private theorem exists_entry_of_entryAt {paths : List String}
    (hs : (p.sources d {}).2.result = .ok paths)
    {s : String} (hmem : s ∈ paths) (habs : Path.isAbsolute s = true)
    (hnormal : Path.normalize s = s) {cache : Cache} (hcache : Consistent p d cache)
    {found : Option ModuleEntry} (h : (p.entryAt d s cache).2.result = .ok found) :
    ∃ entry, found = some entry ∧ entry.module.path = s ∧
      (p.outputs d s {}).2.result = .ok entry.outputs := by
  rw [entryAt] at h
  have hmodule : Transparent p d (p.module d s) := (likeness_transparent p d).ask_module s
  obtain ⟨answer, cache', hcache', hanswer, h⟩ := hmodule.exists_step hcache h
  rw [result_module hs, Path.join_of_isAbsolute habs, hnormal, if_pos hmem, Disk.absolute,
    Path.absolute_of_normal habs hnormal] at hanswer
  obtain ⟨m, hm, rfl⟩ := Except.map_eq_ok_iff.mp hanswer
  have hpath : m.path = s := by
    rw [result_loadModule] at hm
    obtain ⟨file, -, rfl⟩ := Except.map_eq_ok_iff.mp hm
    rfl
  dsimp only at h
  obtain ⟨files, _, -, hfiles, h⟩ := (transparent_outputs m.path).exists_step hcache' h
  rw [hpath] at hfiles
  exact ⟨_, (Except.ok.inj h).symm, hpath, hfiles⟩

/-- An answer for the main module is the entry of the source that is found for the entry point, and
there is none without an entry point or such a source. -/
private theorem exists_of_mainModuleEntry {found : Option ModuleEntry}
    (h : (p.mainModuleEntry d {}).2.result = .ok found) :
    ∃ main, (p.mainFile d {}).2.result = .ok main ∧ (main = none → found = none) ∧
      ∀ m ∈ main, ∃ paths, (p.sources d {}).2.result = .ok paths ∧
        (paths.find? (p.emits d (mainCandidates m)) = none → found = none) ∧
        ∀ s ∈ paths.find? (p.emits d (mainCandidates m)), ∃ cache, Consistent p d cache ∧
          (p.entryAt d s cache).2.result = .ok found := by
  have hsources : Transparent p d (p.sources d) := (likeness_transparent p d).ask_sources
  rw [mainModuleEntry] at h
  obtain ⟨main, cache, hcache, hmain, h⟩ := transparent_mainFile.exists_step (.empty p d) h
  refine ⟨main, hmain, ?_, ?_⟩
  · rintro rfl
    exact (Except.ok.inj h).symm
  · rintro m ⟨⟩
    dsimp only at h
    obtain ⟨paths, cache, hcache, hpaths, h⟩ := hsources.exists_step hcache h
    refine ⟨paths, hpaths, ?_⟩
    obtain ⟨first, hfirst, h⟩ := Query.result_bind_eq_ok_iff.mp h
    have hsearch : Transparent p d (p.firstEmitting d (mainCandidates m) paths) :=
      (likeness_transparent p d).ask_firstEmitting _ _
    have hcache' := (hsearch cache hcache).1
    rw [← eq_find?_of_firstEmitting hcache hfirst]
    constructor
    · rintro rfl
      exact (Except.ok.inj h).symm
    · rintro s ⟨⟩
      dsimp only at h
      obtain ⟨_, cache, hcache, -, h⟩ := (Transparent.lift _).exists_step hcache' h
      exact ⟨cache, hcache, h⟩

/-- **The main module** is the entry of a source from which one of the files is compiled that the
entry point stands for, and there is none exactly if there is no entry point or no such source. An
entry point without extension leads to a source that is compiled to it with `.js` added, if there is
one, and not to the one that is compiled to `index.js` in the folder of that name, if the two
sources begin with the same number of slashes. -/
theorem mainModuleEntry_resolves (hcwd : Path.isAbsolute d.cwd = true) (hd : d.WellNamed)
    (hp : p.OpenOn d)
    (hnormal : ∀ paths, (p.sources d {}).2.result = .ok paths → ∀ s ∈ paths, Path.normalize s = s)
    (hnone : ∀ folder, (p.optionFolder d "rootDir" {}).2.result ≠ .ok (some folder))
    {found : Option ModuleEntry} (hfound : (p.mainModuleEntry d {}).2.result = .ok found) :
    ∃ main, (p.mainFile d {}).2.result = .ok main ∧ (main = none → found = none) ∧
      ∀ m ∈ main, ∃ paths, (p.sources d {}).2.result = .ok paths ∧
        (found = none ↔ ∀ s ∈ paths, p.emits d (mainCandidates m) s = false) ∧
        ∀ entry ∈ found, entry.module.path ∈ paths ∧
          (p.outputs d entry.module.path {}).2.result = .ok entry.outputs ∧
          (∃ file ∈ entry.outputs, file ∈ mainCandidates m) ∧
          (Path.extension m = "" → ∀ s ∈ paths, p.emits d [m ++ ".js"] s = true →
            Path.rootOf s = Path.rootOf entry.module.path →
            m ++ ".js" ∈ entry.outputs ∧ Path.join m "index.js" ∉ entry.outputs) := by
  obtain ⟨main, hmain, hnomain, hsearch⟩ := exists_of_mainModuleEntry hfound
  refine ⟨main, hmain, hnomain, fun m hm => ?_⟩
  obtain ⟨paths, hpaths, hnofirst, hentry⟩ := hsearch m hm
  refine ⟨paths, hpaths, ?_⟩
  obtain ⟨-, -, habs, -⟩ := forall_normal_iff_staysDown hcwd hd hp hpaths
  have hnormal := hnormal paths hpaths
  cases hfirst : paths.find? (p.emits d (mainCandidates m)) with
  | none =>
    obtain rfl := hnofirst hfirst
    rw [List.find?_eq_none] at hfirst
    exact ⟨iff_of_true rfl fun s hs => by simpa using hfirst s hs, nofun⟩
  | some t =>
    have ht := List.mem_of_find?_eq_some hfirst
    have hemits := List.find?_some hfirst
    obtain ⟨cache, hcache, hanswer⟩ := hentry t hfirst
    obtain ⟨entry, rfl, rfl, houtputs⟩ :=
      exists_entry_of_entryAt hpaths ht (habs t ht) (hnormal t ht) hcache hanswer
    obtain ⟨files, hfiles, hcandidate⟩ := emits_iff.mp hemits
    obtain rfl : files = entry.outputs := Except.ok.inj (hfiles.symm.trans houtputs)
    refine ⟨iff_of_false nofun fun hno => ?_, ?_⟩
    · rw [hno _ ht] at hemits
      cases hemits
    · rintro _ ⟨⟩
      refine ⟨ht, hfiles, hcandidate, fun hext s hs hjs hroots => ?_⟩
      obtain ⟨file, hfile, hmem⟩ := hcandidate
      obtain ⟨files', hfiles', hjs⟩ := emits_iff.mp hjs
      have hjs : m ++ ".js" ∈ files' := by simpa using hjs
      obtain ⟨l, shared, hlaid⟩ := exists_laidOut hcwd hd hp hpaths hnormal
        (optionFolder_eq_none hnone hfiles hfile)
      rw [mainCandidates, if_pos hext] at hmem
      rcases List.mem_cons.mp hmem with rfl | hmem
      · exact absurd hext (hlaid.extension_of_mem_outputs ht hfiles hfile)
      rcases List.mem_cons.mp hmem with rfl | hmem
      · exact ⟨hfile, hlaid.index_not_mem ht hfiles hfile⟩
      -- the source of the file with `.js` added would have been found before
      obtain rfl := List.mem_singleton.mp hmem
      have hcandidate : p.emits d (mainCandidates m) s = true := by
        refine emits_iff.mpr ⟨files', hfiles', _, hjs, ?_⟩
        rw [mainCandidates, if_pos hext]
        simp
      rcases precedes_of_find? (pairwise_of_sources hpaths) hfirst hs hcandidate with rfl | hbefore
      · obtain rfl := Except.ok.inj (hfiles'.symm.trans hfiles)
        exact absurd hfile (hlaid.index_not_mem hs hfiles' hjs)
      · rw [hlaid.precedes_index hs ht hfiles' hfiles hjs hfile hroots] at hbefore
        cases hbefore

/-! ### A package with two sources -/

/-- What is answered of a package that lists its sources in order: the sources, no folder for the
root of the layout, the entry point, the outputs of a source and the main module. -/
structure Answers (p : Project) (d : Disk) (paths : List String) (main source : String)
    (files : List String) (found : Option ModuleEntry) : Prop where
  sources : (p.sources d {}).2.result = .ok paths
  rootDir : (p.optionFolder d "rootDir" {}).2.result = .ok none
  mainFile : (p.mainFile d {}).2.result = .ok (some main)
  outputs : (p.outputs d source {}).2.result = .ok files
  mainModuleEntry : (p.mainModuleEntry d {}).2.result = .ok found

/-- It can be computed once the configuration is loaded. -/
private theorem exists_answers {paths : List String} {main source : String} {files : List String}
    {P : Option ModuleEntry → Prop} (hsorted : paths.Pairwise fun s t => Text.precedes s t = true)
    (h : ∃ config, (Config.loadChain d p.compilerPath p.strict).result = .ok config ∧
      (listSetting config "files").isSome = true ∧
      (listSetting config "include").isNone = true ∧
      (∃ named, (gather (p.fileEntry d) ((listSetting config "files").getD [])).result =
        .ok named ∧ named.eraseDups.filter Sources.isSource = paths) ∧
      (∃ folder, (p.optionFolder d "rootDir"
        { compiler := some config, sources := some paths }).2.result = .ok folder ∧
        folder = none) ∧
      (∃ file, (p.mainFile d
        { compiler := some config, sources := some paths }).2.result = .ok file ∧
        file = some main) ∧
      (∃ outputs, (p.outputs d source
        { compiler := some config, sources := some paths }).2.result = .ok outputs ∧
        outputs = files) ∧
      ∃ found, (p.mainModuleEntry d
        { compiler := some config, sources := some paths }).2.result = .ok found ∧ P found) :
    ∃ found, Answers p d paths main source files found ∧ P found := by
  obtain ⟨config, hconfig, hfiles, hpatterns, ⟨named, hnamed, hnames⟩, hrootDir, hmainFile,
    houtputs, found, hfound, hP⟩ := h
  have hsources := result_sources_of_files hconfig hfiles hpatterns hnamed
  rw [hnames, Sources.sorted, List.mergeSort_of_pairwise hsorted] at hsources
  have hcache := consistent_of_loaded hconfig hsources
  have hrootDir := Except.eq_ok_of_exists hrootDir
  have hmainFile := Except.eq_ok_of_exists hmainFile
  have houtputs := Except.eq_ok_of_exists houtputs
  rw [(transparent_optionFolder "rootDir" _ hcache).2] at hrootDir
  rw [(transparent_mainFile _ hcache).2] at hmainFile
  rw [(transparent_outputs source _ hcache).2] at houtputs
  rw [(transparent_mainModuleEntry _ hcache).2] at hfound
  exact ⟨found, ⟨hsources, hrootDir, hmainFile, houtputs, hfound⟩, hP⟩

/-- A package whose entry point `lib/x` is compiled from `x.ts` or from `index.ts` in the folder
`x`, and which lists the two sources under some spellings. -/
def indexed (first second : String) : Disk where
  entries := [
    ("package.json", .file ⟨Utf8.encode "\x7b\"main\":\"lib/x\"\x7d", none, none⟩),
    ("tsconfig.json", .file ⟨Utf8.encode
      ("\x7b\"files\":[\"" ++ first ++ "\",\"" ++ second ++
        "\"],\"compilerOptions\":\x7b\"outDir\":\"lib\"\x7d\x7d"), none, none⟩),
    ("x", .folder [("index.ts", .file ⟨[], none, none⟩)]),
    ("x.ts", .file ⟨[], none, none⟩)]
  cwd := "/"
  limits := .uniform 8

/-- The package at the root of its disk. -/
def indexing (first second : String) : Project :=
  openAt (indexed first second) "/" (some true) none

/-- The source beside the folder is found. -/
theorem mainModuleEntry_indexed : ∃ entry : ModuleEntry,
    ((indexing "x.ts" "x/index.ts").mainModuleEntry
      (indexed "x.ts" "x/index.ts") {}).2.result = .ok (some entry) ∧
    "/lib/x.js" ∈ entry.outputs ∧ "/lib/x/index.js" ∉ entry.outputs := by
  have hanswers : ∃ found, Answers (indexing "x.ts" "x/index.ts") (indexed "x.ts" "x/index.ts")
      ["/x.ts", "/x/index.ts"] "/lib/x" "/x.ts" ["/lib/x.js"] found ∧
      found.map (·.module.path) = some "/x.ts" :=
    exists_answers (by decide +kernel) (by decide +kernel)
  obtain ⟨found, hanswers, hpath⟩ := hanswers
  obtain ⟨entry, rfl, hxts⟩ := Option.map_eq_some_iff.mp hpath
  have hcwd : Path.isAbsolute (indexed "x.ts" "x/index.ts").cwd = true := by decide
  have hnamed : (indexed "x.ts" "x/index.ts").WellNamed := by decide +kernel
  have hopen : (indexing "x.ts" "x/index.ts").OpenOn (indexed "x.ts" "x/index.ts") :=
    ⟨"/", _, _, rfl⟩
  have hnormal : ∀ s ∈ ["/x.ts", "/x/index.ts"], Path.normalize s = s := by decide +kernel
  obtain ⟨main, hmain, -, hsearch⟩ := mainModuleEntry_resolves hcwd hnamed hopen
    (fun paths hpaths => by
      rw [hanswers.sources] at hpaths
      exact Except.ok.inj hpaths ▸ hnormal)
    (fun folder hfolder => by
      rw [hanswers.rootDir] at hfolder
      cases hfolder)
    hanswers.mainModuleEntry
  rw [hanswers.mainFile] at hmain
  obtain ⟨paths, hpaths, -, hentry⟩ := hsearch "/lib/x" (Except.ok.inj hmain).symm
  rw [hanswers.sources] at hpaths
  obtain rfl := Except.ok.inj hpaths
  obtain ⟨-, -, -, hprecedence⟩ := hentry entry rfl
  have hjs : "/lib/x" ++ ".js" = "/lib/x.js" := by decide
  have hindex : Path.join "/lib/x" "index.js" = "/lib/x/index.js" := by decide +kernel
  rw [hjs, hindex] at hprecedence
  exact ⟨entry, hanswers.mainModuleEntry, hprecedence (by decide +kernel) "/x.ts"
    List.mem_cons_self (emits_iff.mpr ⟨_, hanswers.outputs, "/lib/x.js", by decide, by decide⟩)
    (by rw [hxts])⟩

/-- The source in the folder is found if it begins with two slashes, though the other one is
compiled to what comes first among the files that the entry point stands for. -/
theorem mainModuleEntry_doubled : ∃ entry : ModuleEntry,
    ((indexing "//x/index.ts" "x.ts").mainModuleEntry
      (indexed "//x/index.ts" "x.ts") {}).2.result = .ok (some entry) ∧
    entry.outputs = ["/lib/x/index.js"] ∧
    ((indexing "//x/index.ts" "x.ts").outputs
      (indexed "//x/index.ts" "x.ts") "/x.ts" {}).2.result = .ok ["/lib/x.js"] := by
  have hanswers : ∃ found,
      Answers (indexing "//x/index.ts" "x.ts") (indexed "//x/index.ts" "x.ts")
        ["//x/index.ts", "/x.ts"] "/lib/x" "/x.ts" ["/lib/x.js"] found ∧
      found.map (·.outputs) = some ["/lib/x/index.js"] :=
    exists_answers (by decide +kernel) (by decide +kernel)
  obtain ⟨found, hanswers, hfiles⟩ := hanswers
  obtain ⟨entry, rfl, hindex⟩ := Option.map_eq_some_iff.mp hfiles
  exact ⟨entry, hanswers.mainModuleEntry, hindex, hanswers.outputs⟩

end Project

end ApiOutline
