import ApiOutline.Proofs.Config.Settings
import ApiOutline.Proofs.Project.Sources
import ApiOutline.Proofs.Project.Transparency

/-!
# One module and one entry for each source

A module is looked up under the normal spelling of its path, so a source that is listed under
another spelling has no module, unless its normal spelling is listed too. When all sources are
normal, which is the case exactly when no entry of `include` with a step up finds a source, every
source that can be read has its module, the entries of all sources are one for each source in order,
and no source is listed under two spellings (`sources_normal_iff`).

The entries also need the options of the compiler, which a strict project may fail to give. Nothing
is said about the text of a source: every file that can be read has a module.
-/

namespace ApiOutline

namespace Project

variable {p : Project} {d : Disk}

/-! ### Modules -/

theorem result_ofTree {ε : Type} (path : String) (source : List UInt8) (tree : Tree) (tsx : Bool) :
    (Module.ofTree path source tree tsx : Outcome ε Module).result = .ok ⟨path, source, tree⟩ := by
  by_cases hdamage : tree.hasError = true
  · rw [Module.ofTree, if_pos hdamage]
    rfl
  · rw [Module.ofTree, if_neg hdamage]
    rfl

/-- Loading a module fails only where its file cannot be read. -/
theorem result_loadModule (d : Disk) (path : String) : (loadModule d path).result =
    ((d.read path).mapError .disk).map fun file =>
      ⟨path, file.bytes, file.tree.getD default⟩ := by
  rw [loadModule]
  cases d.read path with
  | ok file =>
    dsimp only
    rw [Outcome.bind_eq, Outcome.result_andThen, result_ofTree]
    rfl
  | error fault =>
    dsimp only
    split_ifs <;> rfl

/-- A file that can be read gives a module at its path. -/
private theorem exists_loadModule {path : String} {file : File} (h : d.read path = .ok file) :
    ∃ m, (loadModule d path).result = .ok m ∧ m.path = path :=
  ⟨⟨path, file.bytes, file.tree.getD default⟩, by rw [result_loadModule, h]; rfl, rfl⟩

/-- The module at a path that has not been asked for is loaded. -/
theorem result_cachedModule (d : Disk) (full : String) :
    (cachedModule d full {}).2.result = (loadModule d (d.absolute full)).result := by
  rw [cachedModule, Query.snd_cached rfl, Query.lift_apply]

/-- The module at a normalized path, if that is among the sources. -/
def moduleAmong (d : Disk) (full : String) (paths : List String) : Query (Option Module) :=
  if paths.contains full then do
    return some (← cachedModule d full)
  else do
    .lift (.log .debug .project ("No source module at " ++ full))
    return none

theorem module_eq (p : Project) (d : Disk) (path : String) :
    p.module d path = p.sources d >>= moduleAmong d (Path.normalize (Path.join p.root path)) := by
  rfl

private theorem transparent_moduleAmong (p : Project) (d : Disk) (full : String)
    (paths : List String) :
    Transparent p d (moduleAmong d full paths) := by
  rw [moduleAmong]
  split
  · exact .bind (transparent_cachedModule p d full) fun m => .lift _
  · exact .bind (.lift _) fun _ => .lift _

private theorem result_moduleAmong (d : Disk) (full : String) (paths : List String) :
    (moduleAmong d full paths {}).2.result =
      if full ∈ paths then (loadModule d (d.absolute full)).result.map some else .ok none := by
  by_cases hmem : full ∈ paths
  · rw [moduleAmong, if_pos (List.contains_iff_mem.mpr hmem), if_pos hmem, Query.snd_bind,
      Outcome.result_andThen, result_cachedModule]
    cases (loadModule d (d.absolute full)).result <;> rfl
  · rw [moduleAmong, if_neg (fun h => hmem (List.contains_iff_mem.mp h)), if_neg hmem]
    rfl

/-- **A module is looked up** among the sources under the normal spelling of its path. -/
theorem result_module {paths : List String} (h : (p.sources d {}).2.result = .ok paths)
    (path : String) : (p.module d path {}).2.result =
      if Path.normalize (Path.join p.root path) ∈ paths then
        (loadModule d (d.absolute (Path.normalize (Path.join p.root path)))).result.map some
      else .ok none := by
  have hsources : Transparent p d (p.sources d) := (likeness_transparent p d).ask_sources
  rw [module_eq, hsources.result_bind (transparent_moduleAmong p d _ paths) h, result_moduleAmong]

/-! ### Queries that are answered -/

/-- From consistent caches a query always gives the same answer, which has the property `P`, and it
leaves consistent caches. -/
def Gives {α : Type} (p : Project) (d : Disk) (q : Query α) (P : α → Prop) : Prop :=
  ∃ a, P a ∧ ∀ cache, Consistent p d cache →
    Consistent p d (q cache).1 ∧ (q cache).2.result = .ok a

namespace Gives

variable {α β : Type} {P : α → Prop} {Q : β → Prop}

theorem lift {x : Outcome Failure α} {a : α} (h : x.result = .ok a) (ha : P a) :
    Gives p d (.lift x) P :=
  ⟨a, ha, fun _ hcache => ⟨hcache, h⟩⟩

theorem pure {a : α} (ha : P a) : Gives p d (pure a) P :=
  lift rfl ha

theorem of_transparent {q : Query α} (hq : Transparent p d q) {a : α}
    (h : (q {}).2.result = .ok a) (ha : P a) : Gives p d q P := by
  refine ⟨a, ha, fun cache hcache => ?_⟩
  obtain ⟨hafter, hresult⟩ := hq cache hcache
  exact ⟨hafter, hresult.trans h⟩

theorem result_eq {q : Query α} (h : Gives p d q P) : ∃ a, (q {}).2.result = .ok a ∧ P a := by
  obtain ⟨a, ha, hq⟩ := h
  exact ⟨a, (hq {} (.empty p d)).2, ha⟩

theorem bind {q : Query α} {f : α → Query β} (hq : Gives p d q P)
    (hf : ∀ a, P a → Gives p d (f a) Q) : Gives p d (q >>= f) Q := by
  obtain ⟨a, ha, hq⟩ := hq
  obtain ⟨b, hb, hf⟩ := hf a ha
  refine ⟨b, hb, fun cache hcache => ?_⟩
  obtain ⟨hafter, hresult⟩ := hq cache hcache
  rw [Query.bind_of_ok hresult]
  exact hf _ hafter

/-- A query that is answered for each path is answered for all of them. -/
theorem forAll {f : String → Query α} {R : String → α → Prop} {paths : List String}
    (h : ∀ path ∈ paths, Gives p d (f path) (R path)) :
    Gives p d (Project.forAll f paths) (List.Forall₂ R paths) := by
  induction paths with
  | nil => exact pure .nil
  | cons path rest ih =>
    obtain ⟨hpath, hrest⟩ := List.forall_mem_cons.mp h
    refine bind hpath fun here hhere => bind (ih hrest) fun others hothers => ?_
    exact pure (.cons hhere hothers)

end Gives

/-! ### Entries -/

section Entries

variable {options : Json.Fields} {paths : List String}

private theorem gives_options (ho : (p.options d {}).2.result = .ok options) :
    Gives p d (p.options d) fun _ => True :=
  .of_transparent (likeness_transparent p d).ask_options ho trivial

theorem gives_sources (hs : (p.sources d {}).2.result = .ok paths) :
    Gives p d (p.sources d) (· = paths) :=
  .of_transparent (likeness_transparent p d).ask_sources hs rfl

theorem gives_optionFolder (ho : (p.options d {}).2.result = .ok options) (name : String) :
    Gives p d (p.optionFolder d name) fun _ => True := by
  refine .bind (gives_options ho) fun options _ => ?_
  split
  · exact .pure trivial
  · exact .pure trivial

private theorem gives_rootDir (ho : (p.options d {}).2.result = .ok options)
    (hs : (p.sources d {}).2.result = .ok paths) : Gives p d (p.rootDir d) fun _ => True := by
  refine .bind (gives_optionFolder ho "rootDir") fun folder _ => ?_
  cases folder with
  | some folder => exact .pure trivial
  | none =>
    refine .bind (gives_sources hs) fun _ _ => ?_
    split
    · exact .pure trivial
    · exact .pure trivial

/-- The files generated for a path can always be told. -/
theorem gives_outputs (ho : (p.options d {}).2.result = .ok options)
    (hs : (p.sources d {}).2.result = .ok paths) (source : String) :
    Gives p d (p.outputs d source) fun _ => True := by
  rw [outputs]
  split
  · exact .pure trivial
  · dsimp only
    split
    · exact .pure trivial
    · next compiled hcompiled =>
      refine .bind (gives_options ho) fun options _ => ?_
      refine .bind (gives_rootDir ho hs) fun folder _ => ?_
      have hsource : source ≠ "" := by
        rintro rfl
        cases hcompiled
      obtain ⟨way, hway⟩ : ∃ way, d.relative (Path.splitExtension source).1 folder = .ok way :=
        Path.exists_relative_iff.mpr (Path.splitExtension_ne_empty hsource)
      have hlift : Gives p d (.lift (.ofPath (d.relative (Path.splitExtension source).1 folder)))
          fun _ => True := .lift (by rw [hway]; rfl) trivial
      refine .bind hlift fun way _ => ?_
      refine .bind (gives_optionFolder ho "outDir") fun out _ => ?_
      split
      · exact .bind (gives_optionFolder ho "declarationDir") fun declarations _ => .pure trivial
      · exact .pure trivial

/-- **A source that is normal** and can be read has its module. -/
theorem gives_module (hs : (p.sources d {}).2.result = .ok paths) {s : String} (hmem : s ∈ paths)
    (habs : Path.isAbsolute s = true) (hnormal : Path.normalize s = s) {file : File}
    (hread : d.read s = .ok file) :
    Gives p d (p.module d s) fun found => ∃ m, found = some m ∧ m.path = s := by
  obtain ⟨m, hm, hpath⟩ := exists_loadModule hread
  have hseen : d.absolute s = s := by
    rw [Disk.absolute, Path.absolute, Path.join_of_isAbsolute habs, hnormal]
  refine .of_transparent ((likeness_transparent p d).ask_module s) ?_ ⟨m, rfl, hpath⟩
  rw [result_module hs, Path.join_of_isAbsolute habs, hnormal, if_pos hmem, hseen, hm]
  rfl

/-- **A source that is normal** and can be read has its entry. -/
theorem gives_entryAt (ho : (p.options d {}).2.result = .ok options)
    (hs : (p.sources d {}).2.result = .ok paths) {s : String} (hmem : s ∈ paths)
    (habs : Path.isAbsolute s = true) (hnormal : Path.normalize s = s) {file : File}
    (hread : d.read s = .ok file) :
    Gives p d (p.entryAt d s) fun found => ∃ entry, found = some entry ∧ entry.module.path = s := by
  refine .bind (gives_module hs hmem habs hnormal hread) fun found hfound => ?_
  obtain ⟨m, rfl, hpath⟩ := hfound
  refine .bind (gives_outputs ho hs m.path) fun outputs _ => ?_
  exact .pure ⟨_, rfl, hpath⟩

private theorem filterMap_eq_of_forall₂ {found : List (Option ModuleEntry)}
    (h : List.Forall₂ (fun s o => ∃ entry, o = some entry ∧ entry.module.path = s) paths found) :
    (found.filterMap id).map (·.module.path) = paths := by
  induction h with
  | nil => rfl
  | cons hentry _ ih =>
    obtain ⟨entry, rfl, hpath⟩ := hentry
    rw [List.filterMap_cons_some (by rfl), List.map_cons, ih, hpath]

/-- **The entries** of normal sources that can be read are one for each source, in order. -/
theorem gives_moduleEntries (ho : (p.options d {}).2.result = .ok options)
    (hs : (p.sources d {}).2.result = .ok paths) (habs : ∀ s ∈ paths, Path.isAbsolute s = true)
    (hnormal : ∀ s ∈ paths, Path.normalize s = s)
    (hread : ∀ s ∈ paths, ∃ file, d.read s = .ok file) :
    Gives p d (p.moduleEntries d) fun entries => entries.map (·.module.path) = paths := by
  refine .bind (gives_sources hs) fun sources hsources => ?_
  subst hsources
  refine .bind (.forAll fun s hmem => ?_) fun found hfound => .pure (filterMap_eq_of_forall₂ hfound)
  obtain ⟨file, hfile⟩ := hread s hmem
  exact gives_entryAt ho hs hmem (habs s hmem) (hnormal s hmem) hfile

/-- Options that are an object, if there are any, can always be told, and a project that is not
strict can do without. -/
private theorem exists_options {config : Json.Fields}
    (hconfig : (Config.loadChain d p.compilerPath p.strict).result = .ok config)
    (h : p.strict = true → (config.get? "compilerOptions").all Config.isObject = true) :
    ∃ options, (p.options d {}).2.result = .ok options := by
  have hcompiler : (p.compiler d {}).2.result = .ok config := by
    rw [compiler, Query.snd_cached rfl, Query.lift_apply, hconfig]
  rw [options, (transparent_compiler p d).result_bind (.lift _) hcompiler, Query.lift_apply,
    Config.compilerOptions]
  split
  · exact ⟨_, rfl⟩
  · exact ⟨_, rfl⟩
  · -- options that are no object stop only a strict project
    next value hvalue hget =>
    cases hstrict : p.strict with
    | false => exact ⟨_, rfl⟩
    | true =>
      have hobject := h hstrict
      rw [hget] at hobject
      cases value with
      | obj options => exact absurd rfl (hvalue options)
      | _ => cases hobject

end Entries

/-! ### One spelling for each source -/

/-- **Every source has one spelling, one module and one entry** exactly when no entry of `include`
with a step up finds a source: then the sources are normal. Any other source has a module only if
it is listed under its normal spelling, too. -/
theorem sources_normal_iff (hcwd : Path.isAbsolute d.cwd = true) (hd : d.WellNamed)
    (hp : p.OpenOn d) {paths : List String} (h : (p.sources d {}).2.result = .ok paths) :
    ∃ config, (Config.loadChain d p.compilerPath p.strict).result = .ok config ∧
      (∀ s ∈ paths, Path.isAbsolute s = true) ∧
      ((∀ s ∈ paths, Path.normalize s = s) ↔ p.StaysDown d config) ∧
      (∀ s ∈ paths, (p.module d s {}).2.result = .ok none ↔ Path.normalize s ∉ paths) ∧
      (p.StaysDown d config →
        (∀ s ∈ paths, ∀ t ∈ paths, Path.normalize s = Path.normalize t → s = t) ∧
        ((∀ s ∈ paths, ∃ file, d.read s = .ok file) →
          (∀ s ∈ paths, ∃ m, (p.module d s {}).2.result = .ok (some m) ∧ m.path = s) ∧
          ((p.strict = true → (config.get? "compilerOptions").all Config.isObject = true) →
            ∃ entries, (p.moduleEntries d {}).2.result = .ok entries ∧
              entries.map (·.module.path) = paths))) := by
  obtain ⟨config, hconfig, habs, hnormal⟩ := forall_normal_iff_staysDown hcwd hd hp h
  refine ⟨config, hconfig, habs, hnormal, fun s hs => ?_, fun hdown => ?_⟩
  · rw [result_module h, Path.join_of_isAbsolute (habs s hs)]
    split_ifs with hmem
    · -- a module that cannot be loaded is a failure, and not an answer that there is none
      cases (loadModule d (d.absolute (Path.normalize s))).result <;> simp [Except.map, hmem]
    · simp [hmem]
  · have hnormal := hnormal.mpr hdown
    refine ⟨fun s hs t ht heq => ?_, fun hread => ⟨fun s hs => ?_, fun hoptions => ?_⟩⟩
    · rw [← hnormal s hs, heq, hnormal t ht]
    · obtain ⟨file, hfile⟩ := hread s hs
      obtain ⟨_, hfound, m, rfl, hpath⟩ :=
        (gives_module h hs (habs s hs) (hnormal s hs) hfile).result_eq
      exact ⟨m, hfound, hpath⟩
    · obtain ⟨options, ho⟩ := exists_options hconfig hoptions
      exact (gives_moduleEntries ho h habs hnormal hread).result_eq

/-- The package `p` extends the configuration of the package `b`, which includes one source. -/
def inherited : Disk where
  entries := [
    ("b", .folder [
      ("src", .folder [("a.ts", .file ⟨[], none, none⟩)]),
      ("tsconfig.json", .file ⟨Utf8.encode "\x7b\"include\":[\"src\"]\x7d", none, none⟩)]),
    ("p", .folder [
      ("tsconfig.json", .file ⟨Utf8.encode "\x7b\"extends\":\"../b/tsconfig\"\x7d", none, none⟩)])]
  cwd := "/"
  limits := .uniform 8

/-- The package at a folder of the disk. -/
def inheriting (folder : String) : Project :=
  openAt inherited folder (some true) none

/-- The source has its entry in the package that includes it, and no module in the package that
inherits the list. -/
theorem sources_inherited :
    (∃ config, (Config.loadChain inherited "/p/tsconfig.json" true).result = .ok config ∧
      ¬ (inheriting "p").StaysDown inherited config) ∧
    ((inheriting "p").module inherited "/p/../b/src/a.ts" {}).2.result = .ok none ∧
    ∃ entries, ((inheriting "b").moduleEntries inherited {}).2.result = .ok entries ∧
      entries.map (·.module.path) = ["/b/src/a.ts"] := by
  have hcwd : Path.isAbsolute inherited.cwd = true := by decide
  have hnamed : inherited.WellNamed := by decide +kernel
  have hopen (folder : String) : (inheriting folder).OpenOn inherited := ⟨folder, _, _, rfl⟩
  have hp : ∃ paths, ((inheriting "p").sources inherited {}).2.result = .ok paths ∧
      paths = ["/p/../b/src/a.ts"] := by decide +kernel
  have hb : ∃ paths, ((inheriting "b").sources inherited {}).2.result = .ok paths ∧
      paths = ["/b/src/a.ts"] := by decide +kernel
  obtain ⟨_, hp, rfl⟩ := hp
  obtain ⟨_, hb, rfl⟩ := hb
  refine ⟨?_, ?_, ?_⟩
  · obtain ⟨config, hconfig, -, hnormal, -⟩ := sources_normal_iff hcwd hnamed (hopen "p") hp
    refine ⟨config, hconfig, fun hdown => ?_⟩
    exact absurd (hnormal.mpr hdown _ List.mem_cons_self) (by decide +kernel)
  · obtain ⟨_, -, -, -, hmodule, -⟩ := sources_normal_iff hcwd hnamed (hopen "p") hp
    exact (hmodule _ List.mem_cons_self).mpr (by decide +kernel)
  · obtain ⟨config, hconfig, -, hnormal, -, hall⟩ := sources_normal_iff hcwd hnamed (hopen "b") hb
    have hdown := hnormal.mp (by decide +kernel)
    have hread : ∃ file, inherited.read "/b/src/a.ts" = .ok file ∧ file.bytes = [] := by
      decide +kernel
    obtain ⟨file, hfile, -⟩ := hread
    have hoptions : ∃ fields, (Config.loadChain inherited "/b/tsconfig.json" true).result =
        .ok fields ∧ (fields.get? "compilerOptions").all Config.isObject = true := by decide +kernel
    obtain ⟨fields, hfields, hoptions⟩ := hoptions
    obtain rfl : config = fields := Except.ok.inj (hconfig.symm.trans hfields)
    refine ((hall hdown).2 (fun s hs => ?_)).2 fun _ => hoptions
    rw [List.mem_singleton.mp hs]
    exact ⟨file, hfile⟩

end Project

end ApiOutline
