import ApiOutline.Proofs.Config.Origins
import ApiOutline.Proofs.Path.Folder
import ApiOutline.Proofs.Project.Sources
import ApiOutline.Proofs.Sources.Covering

/-!
# What an entry of `exclude` leaves out

An entry of `exclude` that names something below the root is meant to leave out what is there,
however it is written. The path of a file is seen from the root before it is compared with the
entries, so it is compared in its shortest form. An entry of a file in another folder has been
rewritten to that form, too. But an entry of a file in the root folder is compared as it stands
there, only without slashes at its end.

Hence an entry leaves out everything that is below what it names if it comes from another folder or
is written in the shortest form, and an entry without marks leaves out nothing there if neither is
so (`included_avoids_excluded`). In the first case the named file itself is left out as well, unless
its name holds a bracket that the pattern takes for a set.
-/

namespace ApiOutline

open ApiOutline.Path (IsStep IsName Folder)
open ApiOutline.Path.Folder (wayText)

/-! ### Entries and ways -/

namespace Sources

variable {way rest : List String} {entry : String}

/-- The shortest way has no slashes at its end. -/
private theorem pruned_wayText (hne : way ≠ []) (h : ∀ s ∈ way, IsStep s) :
    pruned (wayText way) = wayText way := by
  obtain ⟨n, hn⟩ := Path.eq_dropRight_append '/' (wayText way).toList
  rw [pruned, Text.trimEnd]
  cases n with
  | zero =>
    rw [List.replicate_zero, List.append_nil] at hn
    rw [← hn, String.ofList_toList]
  | succ n =>
    -- a slash at the end would make an empty segment
    exfalso
    have hslash : wayText way = String.ofList (Text.dropRight (· == '/') (wayText way).toList ++
        List.replicate n '/') ++ "/" ++ "" := by
      rw [← String.toList_inj]
      conv_lhs => rw [hn]
      simp [List.replicate_succ']
    have hempty : "" ∈ way := by
      rw [← Folder.segments_wayText hne h, hslash, Path.segments_append_slash]
      exact List.mem_append_right _ (by decide)
    exact (h "" hempty).ne_empty rfl

/-- An entry that is absolute has an empty segment. -/
private theorem isAbsolute_eq_false_of_pruned (h : "" ∉ Path.segments (pruned entry)) :
    Path.isAbsolute entry = false := by
  rw [← Bool.not_eq_true]
  intro habs
  refine h ?_
  rcases Path.isAbsolute_of_trimEnd habs with heq | habs
  · rw [pruned, heq]
    decide
  · obtain ⟨cs, hcs⟩ := Path.isAbsolute_iff.mp habs
    have hslash : pruned entry = "/" ++ String.ofList cs := by
      rw [← String.toList_inj, pruned, hcs]
      simp
    rw [hslash, Path.segments_slash]
    exact List.mem_cons_self

/-- The segments of an entry that names a path at or above the end of a way begin the way. -/
private theorem segments_pruned_of_namesAbove (hne : way ≠ []) (h : ∀ s ∈ way, IsStep s)
    (habove : NamesAbove entry (wayText way)) : Path.segments (pruned entry) <+: way := by
  have hsegments := Folder.segments_wayText hne h
  rcases habove with heq | hstart
  · rw [← heq, hsegments]
  · obtain ⟨x, hx⟩ := Text.startsWith_iff.mp hstart
    rw [hx, Path.segments_append_slash] at hsegments
    exact ⟨_, hsegments⟩

/-- An entry in its shortest form covers all that is below what it names, and this itself if it
matches its own text. -/
private theorem covers_of_pruned_eq (hne : way ≠ []) (h : pruned entry = wayText way)
    (hrest : rest ≠ [] ∨ Wildcard.isMatch (wayText way) (wayText way) = true) :
    covers entry (wayText (way ++ rest)) = true := by
  rcases eq_or_ne rest [] with rfl | hbelow
  · have hmatch := hrest.resolve_left (not_not_intro rfl)
    rw [← h] at hmatch
    rw [List.append_nil, ← h]
    exact covers_iff.mpr (.inl hmatch)
  · rw [Folder.wayText_append hne hbelow]
    exact NamesAbove.covers_below (.inl h.symm) _

end Sources

namespace Project

variable {p : Project} {d : Disk} {way rest : List String}

/-! ### Places below the root -/

/-- A path leads to what stands `way` below the root of the project. -/
def LeadsTo (p : Project) (path : String) (way : List String) : Prop :=
  Path.names (Path.normalize path) = Path.names p.root ++ way

instance LeadsTo.decidable (path : String) (way : List String) : Decidable (p.LeadsTo path way) :=
  inferInstanceAs (Decidable (Path.names (Path.normalize path) = Path.names p.root ++ way))

theorem OpenOn.exists_folder (h : p.OpenOn d) (hcwd : Path.isAbsolute d.cwd = true) :
    ∃ f : Folder, p.root = f.path [] := by
  obtain ⟨root, names, hr, hnames, hroot⟩ := h.exists_spell hcwd
  exact ⟨⟨root, names, hr, hnames⟩, by rw [hroot, Folder.path, List.append_nil]⟩

namespace LeadsTo

variable {f : Folder} {path : String}

theorem isName (h : p.LeadsTo path way) (hpath : Path.isAbsolute path = true) :
    ∀ n ∈ way, IsName n := by
  obtain ⟨root, names, hr, hnames, heq⟩ := Path.exists_spell_of_normal
    (Path.isAbsolute_normalize hpath) (Path.normalize_normalize hpath)
  rw [LeadsTo, heq, Path.names_spell hr fun n hn => (hnames n hn).toIsStep] at h
  exact fun n hn => hnames n (h ▸ List.mem_append_right _ hn)

/-- Seen from the root, what stands `way` below it is the text of that way. -/
theorem relative_eq (h : p.LeadsTo path way) (hroot : p.root = f.path [])
    (hpath : Path.isAbsolute path = true) : d.relative path p.root = .ok (wayText way) := by
  have hstart : Path.names (Path.absolute d.cwd p.root) = f.names ++ [] := by
    rw [hroot]
    exact Folder.names_absolute_path (by simp) rfl d.cwd
  have hgoal : Path.names (Path.absolute d.cwd path) = f.names ++ way := by
    rw [Path.absolute, Path.join_of_isAbsolute hpath, h, hroot, Folder.names_path (by simp),
      List.append_nil]
  rw [Disk.relative, Folder.relative_of_names (Path.ne_empty_of_isAbsolute hpath) hstart hgoal]
  simp [Path.wayBetween, Path.commonStart]

/-- **An entry of the root folder** names a path at or above something below what it leads to only
in its shortest form. -/
theorem pruned_eq {entry : String} (h : p.LeadsTo (Path.join p.root entry) way)
    (hroot : p.root = f.path []) (hne : way ≠ []) (hnames : ∀ n ∈ way ++ rest, IsName n)
    (habove : Sources.NamesAbove entry (wayText (way ++ rest))) :
    Sources.pruned entry = wayText way := by
  have hbegin := Sources.segments_pruned_of_namesAbove (by simp [hne])
    (fun s hs => (hnames s hs).toIsStep) habove
  have hname : ∀ s ∈ Path.segments (Sources.pruned entry), IsName s :=
    fun s hs => hnames s (hbegin.subset hs)
  have hsegments : Path.names entry = Path.segments (Sources.pruned entry) := by
    rw [← Path.names_trimEnd]
    exact List.filter_eq_self.mpr fun s hs => by simpa using (hname s hs).ne_empty
  have hrelative : Path.isAbsolute entry = false :=
    Sources.isAbsolute_eq_false_of_pruned fun hempty => (hname "" hempty).ne_empty rfl
  have hgoal : Path.goal? [] entry = some (Path.names entry) := by
    refine Path.goal?_eq_some_iff.mpr ⟨hrelative, ?_⟩
    rw [← Path.within?_filter]
    exact Path.within?_of_isName (fun n hn => hname n (hsegments ▸ hn)) []
  have hway : Path.names entry = way := by
    have hsteps : ∀ s ∈ Path.names entry, IsStep s :=
      fun s hs => (hname s (hsegments ▸ hs)).toIsStep
    rw [LeadsTo, hroot, Folder.normalize_join (by simp) hgoal, Folder.names_path hsteps,
      Folder.names_path (by simp), List.append_nil] at h
    exact List.append_cancel_left h
  rw [← Path.intercalate_segments (Sources.pruned entry), ← hsegments, hway,
    Folder.wayText_of_ne_nil hne]

end LeadsTo

/-! ### The entries that count -/

/-- A file stands in the root folder of the project. -/
def Beside (p : Project) (f : String) : Prop :=
  Path.normalize (Path.dirname f) = Path.normalize p.root

instance Beside.decidable (f : String) : Decidable (p.Beside f) :=
  inferInstanceAs (Decidable (Path.normalize (Path.dirname f) = Path.normalize p.root))

/-- The patterns of what is left out are the entries `raws` of the file `f`: as they are written
there if it stands in the root folder, and seen from the root otherwise. -/
structure Excluding (p : Project) (d : Disk) (config : Json.Fields) (f : String)
    (raws : List Json) : Prop where
  reached : ∃ chain, Config.Reached d (d.absolute p.compilerPath) chain f
  written : (Config.settings d f).get? "exclude" = some (.arr raws)
  seen : excludes config = (if p.Beside f then raws
    else raws.map (Config.seenFrom d (Path.dirname f) p.root)).map Json.text

private theorem dirname_compilerPath {f : Folder} (hroot : p.root = f.path []) :
    Path.dirname (d.absolute p.compilerPath) = p.root := by
  have hname : IsName "tsconfig.json" := by decide
  have hnames : ∀ n ∈ ["tsconfig.json"], IsName n := List.forall_mem_singleton.mpr hname
  have hpath : p.compilerPath = f.path ["tsconfig.json"] := by
    rw [compilerPath, hroot]
    exact Folder.join_path (List.forall_mem_nil _) hname.toIsStep
  rw [hpath, Disk.absolute, Folder.absolute_of_isName hnames, hroot]
  exact Folder.dirname_path (List.forall_mem_nil _) hname.toIsStep

private theorem exists_excluding (hcwd : Path.isAbsolute d.cwd = true) (hp : p.OpenOn d)
    {config : Json.Fields}
    (hconfig : (Config.loadChain d p.compilerPath p.strict).result = .ok config) :
    listSetting config "exclude" = none ∨ ∃ f raws, p.Excluding d config f raws := by
  obtain ⟨f, hroot⟩ := hp.exists_folder hcwd
  cases hlist : listSetting config "exclude" with
  | none => exact .inl rfl
  | some items =>
    have hitems : config.get? "exclude" = some (.arr items) := by
      rw [listSetting] at hlist
      split at hlist
      · next heq => rw [heq, Option.some.inj hlist]
      · cases hlist
    obtain ⟨chain, file, raws, hreached, hraws, heq⟩ :=
      Config.exists_origin_of_loadChain hcwd hconfig (by decide) hitems
    rw [dirname_compilerPath hroot] at heq
    refine .inr ⟨file, raws, ⟨chain, hreached⟩, hraws, ?_⟩
    rw [excludes, hlist, Option.getD_some, heq]
    rfl

/-- An entry of a file in another folder is rewritten to its shortest form. -/
private theorem LeadsTo.seenFrom_eq {f : Folder} {dir : String} {raw : Json}
    (h : p.LeadsTo (Path.join dir raw.text) way) (hroot : p.root = f.path [])
    (hdir : Path.isAbsolute dir = true) :
    Config.seenFrom d dir p.root raw = .str (wayText way) := by
  rw [Config.seenFrom, h.relative_eq hroot (Path.isAbsolute_join hdir raw.text)]

/-! ### What is left out -/

/-- An entry of `include` contributes a path. -/
def Included (p : Project) (d : Disk) (config : Json.Fields) (s : String) : Prop :=
  ∃ entry ∈ (listSetting config "include").getD [], ∃ found,
    (p.includeEntry d (excludes config) entry).result = .ok found ∧ s ∈ found

instance Included.decidable (config : Json.Fields) (s : String) :
    Decidable (p.Included d config s) :=
  inferInstanceAs (Decidable (∃ entry ∈ (listSetting config "include").getD [], ∃ found,
    (p.includeEntry d (excludes config) entry).result = .ok found ∧ s ∈ found))

namespace Included

variable {config : Json.Fields} {s : String}

theorem isAbsolute (h : p.Included d config s) (hcwd : Path.isAbsolute d.cwd = true)
    (hd : d.WellNamed) (hp : p.OpenOn d) : Path.isAbsolute s = true := by
  obtain ⟨root, names, hr, hnames, hroot⟩ := hp.exists_spell hcwd
  obtain ⟨entry, -, found, hfound, hs⟩ := h
  exact (goesOn_of_mem_includeEntry hd hr hnames hroot hfound hs).isAbsolute hr

/-- No entry of `exclude` covers what is included. -/
theorem covers_eq_false {f : Folder} (h : p.Included d config s) (hroot : p.root = f.path [])
    (hs : Path.isAbsolute s = true) (hway : p.LeadsTo s way) {pattern : String}
    (hpattern : pattern ∈ excludes config) : Sources.covers pattern (wayText way) = false := by
  obtain ⟨entry, -, found, hfound, hmem⟩ := h
  obtain ⟨_, -, _, -, hkept⟩ := includeEntry_eq_ok_iff.mp hfound
  have hkeeps := ((mem_kept_iff hkept).mp hmem).2
  rw [keeps, hway.relative_eq hroot hs] at hkeeps
  have hboth := Except.ok.inj hkeeps
  rw [Bool.and_eq_true, Bool.not_eq_true'] at hboth
  exact Bool.eq_false_iff.mpr (List.any_eq_false.mp hboth.1 pattern hpattern)

end Included

namespace Excluding

variable {config : Json.Fields} {f : String} {raws : List Json} {raw : Json}

theorem isAbsolute_dirname (h : p.Excluding d config f raws)
    (hcwd : Path.isAbsolute d.cwd = true) : Path.isAbsolute (Path.dirname f) = true := by
  obtain ⟨chain, hreached⟩ := h.reached
  exact Path.isAbsolute_dirname (hreached.isAbsolute (Path.isAbsolute_absolute hcwd _))

/-- Of an entry that comes from another folder, or is written in the shortest form, the shortest
form is among the patterns. -/
private theorem exists_pruned_eq (h : p.Excluding d config f raws)
    (hcwd : Path.isAbsolute d.cwd = true)
    (hp : p.OpenOn d) (hraw : raw ∈ raws) (hne : way ≠ [])
    (hway : p.LeadsTo (Path.join (Path.dirname f) raw.text) way)
    (hform : ¬p.Beside f ∨ Sources.pruned raw.text = wayText way) :
    ∃ pattern ∈ excludes config, Sources.pruned pattern = wayText way := by
  obtain ⟨folder, hroot⟩ := hp.exists_folder hcwd
  have hdir := h.isAbsolute_dirname hcwd
  have hnames := hway.isName (Path.isAbsolute_join hdir raw.text)
  rw [h.seen]
  split_ifs with hbeside
  · exact ⟨raw.text, List.mem_map_of_mem hraw, hform.resolve_left (not_not_intro hbeside)⟩
  · refine ⟨wayText way, ?_, Sources.pruned_wayText hne fun n hn => (hnames n hn).toIsStep⟩
    rw [List.map_map]
    refine List.mem_map.mpr ⟨raw, hraw, ?_⟩
    rw [Function.comp_apply, hway.seenFrom_eq hroot hdir]
    rfl

/-- **Such an entry** keeps out all that is below what it names, and this itself if its text is a
pattern that matches it. -/
theorem eq_nil_of_included (h : p.Excluding d config f raws) (hcwd : Path.isAbsolute d.cwd = true)
    (hd : d.WellNamed) (hp : p.OpenOn d) (hraw : raw ∈ raws) (hne : way ≠ [])
    (hway : p.LeadsTo (Path.join (Path.dirname f) raw.text) way)
    (hform : ¬p.Beside f ∨ Sources.pruned raw.text = wayText way) {s : String}
    (hs : p.Included d config s) (hbelow : p.LeadsTo s (way ++ rest)) :
    rest = [] ∧ Wildcard.isMatch (wayText way) (wayText way) = false := by
  obtain ⟨folder, hroot⟩ := hp.exists_folder hcwd
  obtain ⟨pattern, hpattern, hpruned⟩ := h.exists_pruned_eq hcwd hp hraw hne hway hform
  have huncovered := hs.covers_eq_false hroot (hs.isAbsolute hcwd hd hp) hbelow hpattern
  have hnot : ¬(rest ≠ [] ∨ Wildcard.isMatch (wayText way) (wayText way) = true) := by
    intro hcovered
    rw [Sources.covers_of_pruned_eq hne hpruned hcovered] at huncovered
    cases huncovered
  simpa using hnot

/-- **Any other entry**, if it has no marks, covers nothing at or below what it names. -/
theorem covers_eq_false (h : p.Excluding d config f raws) (hcwd : Path.isAbsolute d.cwd = true)
    (hp : p.OpenOn d) (hne : way ≠ []) (hway : p.LeadsTo (Path.join (Path.dirname f) raw.text) way)
    (hbeside : p.Beside f) (hform : Sources.pruned raw.text ≠ wayText way)
    (hmark : Wildcard.hasMark (Sources.pruned raw.text) = false)
    (hnames : ∀ n ∈ way ++ rest, IsName n) :
    Sources.covers raw.text (wayText (way ++ rest)) = false := by
  obtain ⟨folder, hroot⟩ := hp.exists_folder hcwd
  have habs : Path.isAbsolute p.root = true := hroot ▸ folder.isAbsolute_path []
  -- the folder of the file is that of the project, in some spelling
  rw [LeadsTo, ← Path.normalize_join_normalize (h.isAbsolute_dirname hcwd), hbeside,
    Path.normalize_join_normalize habs] at hway
  rw [← Bool.not_eq_true, Sources.covers_iff_of_hasMark hmark]
  exact fun habove => hform (LeadsTo.pruned_eq hway hroot hne hnames habove)

end Excluding

/-- **Entries of `exclude`** are those of one file that loading comes to. Let one of them lead to
what stands `way` below the root. If the file stands in another folder, or the entry is the text of
that way but for slashes at its end, no entry of `include` contributes anything below what the entry
leads to, nor this itself if its text is a pattern that matches it. If neither is so and the entry
has no marks, it covers nothing there at all. -/
theorem included_avoids_excluded (hcwd : Path.isAbsolute d.cwd = true) (hd : d.WellNamed)
    (hp : p.OpenOn d) {config : Json.Fields}
    (hconfig : (Config.loadChain d p.compilerPath p.strict).result = .ok config) :
    listSetting config "exclude" = none ∨ ∃ f raws, p.Excluding d config f raws ∧
      ∀ raw ∈ raws, ∀ way, way ≠ [] → p.LeadsTo (Path.join (Path.dirname f) raw.text) way →
        (¬p.Beside f ∨ Sources.pruned raw.text = wayText way →
          ∀ s, p.Included d config s → ∀ rest, p.LeadsTo s (way ++ rest) →
            rest = [] ∧ Wildcard.isMatch (wayText way) (wayText way) = false) ∧
        (p.Beside f ∧ Sources.pruned raw.text ≠ wayText way →
          Wildcard.hasMark (Sources.pruned raw.text) = false →
          ∀ s, Path.isAbsolute s = true → ∀ rest, p.LeadsTo s (way ++ rest) →
            ∀ seen, d.relative s p.root = .ok seen → Sources.covers raw.text seen = false) := by
  obtain ⟨folder, hroot⟩ := hp.exists_folder hcwd
  rcases exists_excluding hcwd hp hconfig with hnone | ⟨f, raws, h⟩
  · exact .inl hnone
  refine .inr ⟨f, raws, h, fun raw hraw way hne hway => ⟨fun hform s hs rest hbelow => ?_, ?_⟩⟩
  · exact h.eq_nil_of_included hcwd hd hp hraw hne hway hform hs hbelow
  · rintro ⟨hbeside, hform⟩ hmark s habs rest hbelow seen hseen
    rw [hbelow.relative_eq hroot habs] at hseen
    obtain rfl := Except.ok.inj hseen
    exact h.covers_eq_false hcwd hp hne hway hbeside hform hmark (hbelow.isName habs)

/-! ### Two ways of leaving out a folder -/

/-- A package with the sources `src/a.ts` and `src/gen/b.ts`. The base `config/base.json` of its
configuration leaves out the folder `src/gen`. -/
def generating (top : String) : Disk where
  entries := [
    ("config", .folder [
      ("base.json", .file ⟨Utf8.encode "\x7b\"exclude\":[\"../src/./gen/\"]\x7d", none, none⟩)]),
    ("src", .folder [
      ("a.ts", .file ⟨[], none, none⟩), ("gen", .folder [("b.ts", .file ⟨[], none, none⟩)])]),
    ("tsconfig.json", .file ⟨Utf8.encode top, none, none⟩)]
  cwd := "/"
  limits := .uniform 8

/-- The disk on which the configuration takes over the entries of its base. -/
def handingDown : Disk :=
  generating "\x7b\"extends\":\"./config/base\",\"include\":[\"src\"]\x7d"

/-- The disk on which the configuration has such an entry of its own. -/
def declaring : Disk :=
  generating "\x7b\"include\":[\"src\"],\"exclude\":[\"./src/gen\"]\x7d"

/-- The package at the root of its disk. -/
def atTop : Project :=
  ⟨"/", false⟩

/-- What lies at the root is opened there. -/
theorem openOn_of_cwd (hcwd : d.cwd = "/") (strict : Bool) : (Project.mk "/" strict).OpenOn d := by
  have hroot : Path.absolute "/" "/" = "/" := by decide +kernel
  exact ⟨"/", some strict, none, by rw [openAt, Disk.absolute, hcwd, hroot]; rfl⟩

/-- The first file extends the base and has no entries, and the base has an entry and extends
nothing. -/
private theorem files_handingDown :
    Config.bases handingDown "/tsconfig.json" = ["/config/base.json"] ∧
    ((Config.settings handingDown "/tsconfig.json").get? "exclude").isNone = true ∧
    Config.bases handingDown "/config/base.json" = [] ∧
    ∃ raw ∈ (listSetting (Config.settings handingDown "/config/base.json") "exclude").getD [],
      raw.text = "../src/./gen/" := by
  decide +kernel

private theorem reached_handingDown {chain : List String} {f : String}
    (h : Config.Reached handingDown "/tsconfig.json" chain f) :
    f = "/tsconfig.json" ∨ f = "/config/base.json" := by
  obtain ⟨htop, -, hbase, -⟩ := files_handingDown
  induction h with
  | start => exact .inl rfl
  | base _ _ hmem ih =>
    rcases ih with rfl | rfl
    · rw [htop] at hmem
      exact .inr (List.mem_singleton.mp hmem)
    · rw [hbase] at hmem
      cases hmem

/-- The entries that count on this disk are those of the base. -/
private theorem excluding_handingDown {config : Json.Fields} {f : String} {raws : List Json}
    (h : atTop.Excluding handingDown config f raws) :
    f = "/config/base.json" ∧ ∃ raw ∈ raws, raw.text = "../src/./gen/" := by
  obtain ⟨-, hnone, -, hsome⟩ := files_handingDown
  obtain ⟨chain, hreached⟩ := h.reached
  have hstart : handingDown.absolute atTop.compilerPath = "/tsconfig.json" := by decide +kernel
  have hraws : (listSetting (Config.settings handingDown f) "exclude").getD [] = raws := by
    rw [listSetting, h.written]
    rfl
  rw [hstart] at hreached
  rcases reached_handingDown hreached with rfl | rfl
  · rw [h.written] at hnone
    cases hnone
  · rw [hraws] at hsome
    exact ⟨rfl, hsome⟩

/-- **An inherited entry** leaves out what it names, however it is written. -/
theorem included_avoids_excluded_inherited : ∃ config,
    (Config.loadChain handingDown atTop.compilerPath atTop.strict).result = .ok config ∧
    atTop.Included handingDown config "/src/a.ts" ∧
    ∀ s, atTop.Included handingDown config s →
      ∀ rest, ¬atTop.LeadsTo s (["src", "gen"] ++ rest) := by
  have hloaded : ∃ config,
      (Config.loadChain handingDown atTop.compilerPath atTop.strict).result = .ok config ∧
      (listSetting config "exclude").isSome = true ∧
      atTop.Included handingDown config "/src/a.ts" := by decide +kernel
  obtain ⟨config, hconfig, hexclude, hincluded⟩ := hloaded
  refine ⟨config, hconfig, hincluded, fun s hs rest hbelow => ?_⟩
  have hcwd : Path.isAbsolute handingDown.cwd = true := by decide
  have hnamed : handingDown.WellNamed := by decide +kernel
  have hopen : atTop.OpenOn handingDown := by
    have hroot : handingDown.absolute "/" = "/" := by decide +kernel
    exact ⟨"/", some false, none, by rw [openAt, hroot]; rfl⟩
  rcases included_avoids_excluded hcwd hnamed hopen hconfig with hnone | ⟨f, raws, hexcluding, h⟩
  · rw [hnone] at hexclude
    cases hexclude
  · obtain ⟨rfl, raw, hraw, htext⟩ := excluding_handingDown hexcluding
    have hleads : atTop.LeadsTo (Path.join (Path.dirname "/config/base.json") raw.text)
        ["src", "gen"] := by
      rw [htext]
      decide +kernel
    obtain ⟨-, hmatch⟩ := (h raw hraw ["src", "gen"] (by decide) hleads).1
      (.inl (by decide +kernel)) s hs rest hbelow
    exact absurd hmatch (by decide +kernel)

/-- An entry of the first file that begins with a step to the same folder leaves out nothing. -/
example : ∃ config,
    (Config.loadChain declaring atTop.compilerPath atTop.strict).result = .ok config ∧
    excludes config = ["./src/gen"] ∧
    atTop.LeadsTo (Path.join atTop.root "./src/gen") ["src", "gen"] ∧
    atTop.Included declaring config "/src/gen/b.ts" ∧
    atTop.LeadsTo "/src/gen/b.ts" ["src", "gen", "b.ts"] := by
  decide +kernel

end Project

end ApiOutline
