import ApiOutline.Proofs.Path.Folder
import ApiOutline.Proofs.Project.Outputs
import ApiOutline.Proofs.Project.Persistence

/-!
# The name of an entry leads back to it

The name of an entry is the path of its module as seen from the root of the project. Whoever asks
the project for the entry of that name gets the entry itself, with the same module and the same
outputs, whatever happened in between and whatever the disk holds by then; so no two entries have
one name (`moduleEntry_name`). The module may lie anywhere: the way to it goes up as far as it has
to, and is undone step by step when it is joined to the root.

An answer lasts when it comes from slots and from nothing that the disk or the working directory
says afterwards. The outputs of a source are such an answer because both ends of the way from the
folder of sources are absolute. That holds of the paths of all modules that requests ever load
(`Placed`), but not of a path that someone may ask for.

A path that begins with two slashes is left out. Such a path can have the same names as one with a
single slash, and the way between two paths looks at the names alone.
-/

namespace ApiOutline

private theorem Path.isAbsolute_common (paths : List String) :
    isAbsolute (common paths) = true := by
  rw [common]
  split
  · decide
  · exact isAbsolute_append (by decide) _

namespace Project

variable {p : Project} {d : Disk} {cache cache' : Cache} {α β : Type}

/-! ### Answers that last -/

/-- The second caches hold all that the first ones hold. -/
def Extends (cache cache' : Cache) : Prop :=
  ∀ (slot : Slot) (a : slot.Value), slot.get? cache = some a → slot.get? cache' = some a

/-- With these caches or more a query answers `a` on every disk, and leaves them as they are. -/
def Kept (cache : Cache) (q : Disk → Query α) (a : α) : Prop :=
  ∀ cache', Extends cache cache' → ∀ d, (q d cache').1 = cache' ∧ (q d cache').2.result = .ok a

/-- A query only fills slots, and what it answers once it answers for ever. -/
structure Lasting (p : Project) (q : Disk → Query α) : Prop where
  fills : ∀ d, Fills p d (q d)
  kept : ∀ {d cache a}, (q d cache).2.result = .ok a → Kept (q d cache).1 q a

theorem Filled.extends (h : Filled p d cache cache') : Extends cache cache' :=
  fun _ _ hsome => h.get?_of_some hsome

private theorem State.run_append (p : Project) (s : State) (steps more : List Step) :
    s.run p (steps ++ more) = (s.run p steps).run p more :=
  List.foldl_append

private theorem State.extends_run (p : Project) (s : State) (steps : List Step) :
    Extends s.cache (s.run p steps).cache :=
  fun slot _ hsome => get?_run_of_some slot hsome steps

namespace Kept

variable {q : Disk → Query α} {a : α}

theorem mono (h : Kept cache q a) (hcache : Extends cache cache') : Kept cache' q a :=
  fun cache'' hcache' => h cache'' fun slot a hsome => hcache' slot a (hcache slot a hsome)

theorem lift {x : Disk → Outcome Failure α} (h : ∀ d, (x d).result = .ok a) :
    Kept cache (fun d => .lift (x d)) a :=
  fun _ _ d => ⟨rfl, h d⟩

theorem bind {f : α → Disk → Query β} {b : β} (hq : Kept cache q a) (hf : Kept cache (f a) b) :
    Kept cache (fun d => q d >>= fun a => f a d) b := by
  intro cache' hcache d
  obtain ⟨hsame, hresult⟩ := hq cache' hcache d
  beta_reduce
  rw [Query.bind_of_ok hresult, hsame]
  exact hf cache' hcache d

end Kept

namespace Lasting

variable {q : Disk → Query α}

/-- What does not depend on the disk lasts. -/
theorem lift {x : Disk → Outcome Failure α} (h : ∀ d d', (x d).result = (x d').result) :
    Lasting p fun d => .lift (x d) where
  fills _ := .lift _
  kept := fun {d _ _} ha => .lift fun d' => (h d' d).trans ha

/-- What is answered from a slot lasts. -/
theorem query (slot : Slot) (h : ∀ d, Fills p d (slot.loader p d)) :
    Lasting p fun d => slot.query p d where
  fills d := .query slot (h d)
  kept := fun ha cache' hcache d' => by
    beta_reduce
    rw [Slot.query_of_some (hcache slot _ (Slot.get?_query slot ha))]
    exact ⟨rfl, rfl⟩

/-- After a lasting answer it goes on with what lasts. -/
theorem bind {f : α → Disk → Query β} (hq : Lasting p q)
    (hf : ∀ d cache a, (q d cache).2.result = .ok a → Lasting p (f a)) :
    Lasting p fun d => q d >>= fun a => f a d where
  fills d cache := by
    cases ha : (q d cache).2.result with
    | error e =>
      rw [Query.bind_of_error ha]
      exact hq.fills d cache
    | ok a =>
      rw [Query.bind_of_ok ha]
      exact (hq.fills d cache).trans ((hf d cache a ha).fills d _)
  kept := fun {d cache b} hb => by
    obtain ⟨a, ha, hb⟩ := Query.result_bind_eq_ok_iff.mp hb
    have hlasts := hf d cache a ha
    rw [Query.bind_of_ok ha]
    exact ((hq.kept ha).mono (hlasts.fills d _).extends).bind (hlasts.kept hb)

end Lasting

private theorem lasting_options (p : Project) : Lasting p p.options :=
  .bind (.query .compiler fun _ => .lift _) fun _ _ _ _ => .lift fun _ _ => rfl

private theorem lasting_optionFolder (p : Project) (name : String) :
    Lasting p fun d => p.optionFolder d name := by
  refine .bind (lasting_options p) fun _ _ options _ => ?_
  split
  · exact .lift fun _ _ => rfl
  · exact .lift fun _ _ => rfl

private theorem lasting_sources (p : Project) : Lasting p p.sources :=
  .query .sources fun d => (likeness_fills p d).ask_loadSources

private theorem lasting_rootDir (p : Project) : Lasting p p.rootDir := by
  refine .bind (lasting_optionFolder p "rootDir") fun _ _ folder _ => ?_
  cases folder with
  | some folder => exact .lift fun _ _ => rfl
  | none =>
    refine .bind (lasting_sources p) fun _ _ paths _ => ?_
    split
    · exact .lift fun _ _ => rfl
    · exact .lift fun _ _ => rfl

private theorem lasting_module (p : Project) (path : String) :
    Lasting p fun d => p.module d path := by
  simp only [module_eq]
  refine .bind (lasting_sources p) fun _ _ paths _ => ?_
  by_cases hmem : paths.contains (Path.normalize (Path.join p.root path)) = true
  · simp only [moduleAmong, if_pos hmem]
    exact .bind (.query (.module _) fun _ => .lift _) fun _ _ m _ => .lift fun _ _ => rfl
  · simp only [moduleAmong, if_neg hmem]
    exact .bind (.lift fun _ _ => rfl) fun _ _ _ _ => .lift fun _ _ => rfl

/-! ### Outputs -/

/-- The root of the layout of sources is absolute. -/
private theorem isAbsolute_of_rootDir (hroot : Path.isAbsolute p.root = true) {folder : String}
    (h : (p.rootDir d cache).2.result = .ok folder) : Path.isAbsolute folder = true := by
  obtain ⟨found, hfound, h⟩ := Query.result_bind_eq_ok_iff.mp h
  cases found with
  | some named =>
    obtain rfl : named = folder := Except.ok.inj h
    obtain ⟨root, names, hr, -, rfl⟩ := isNormal_of_optionFolder hroot hfound named rfl
    exact Path.isAbsolute_spell hr names
  | none =>
    obtain ⟨paths, -, h⟩ := Query.result_bind_eq_ok_iff.mp h
    generalize paths.filter (fun path => !Sources.isDeclaration path) = inputs at h
    cases inputs with
    | nil => exact Except.ok.inj h ▸ hroot
    | cons first rest => exact Except.ok.inj h ▸ Path.isAbsolute_common _

/-- **The files generated for an absolute path** are answered so for ever. -/
theorem lasting_outputs (hroot : Path.isAbsolute p.root = true) {source : String}
    (hsource : Path.isAbsolute source = true) : Lasting p fun d => p.outputs d source := by
  by_cases hdeclaration : Sources.isDeclaration source = true
  · simp only [outputs, if_pos hdeclaration]
    exact .lift fun _ _ => rfl
  simp only [outputs, if_neg hdeclaration]
  split
  · exact .lift fun _ _ => rfl
  · refine .bind (lasting_options p) fun _ _ options _ => ?_
    refine .bind (lasting_rootDir p) fun _ _ folder hfolder => ?_
    have hway (d d' : Disk) : (Outcome.ofPath (d.relative (Path.splitExtension source).1
        folder)).result = (Outcome.ofPath (d'.relative (Path.splitExtension source).1
        folder)).result := by
      rw [Disk.relative, Disk.relative,
        Path.relative_of_isAbsolute (Path.isAbsolute_splitExtension hsource)
          (isAbsolute_of_rootDir hroot hfolder) d.cwd d'.cwd]
    refine .bind (.lift hway) fun _ _ way _ => ?_
    refine .bind (lasting_optionFolder p "outDir") fun _ _ out _ => ?_
    split
    · exact .bind (lasting_optionFolder p "declarationDir") fun _ _ _ _ => .lift fun _ _ => rfl
    · exact .lift fun _ _ => rfl

/-! ### Where modules come from -/

/-- Every module that is there has the path under which it is looked up. -/
def Placed (p : Project) (cache : Cache) : Prop :=
  ∀ path m, cache.modules.lookup (Path.normalize (Path.join p.root path)) = some m →
    m.path = Path.normalize (Path.join p.root path)

private theorem placed_empty (p : Project) : Placed p {} :=
  fun _ _ h => nomatch h

/-- What a request loads has the path under which it is looked up, from wherever it is seen. -/
theorem Filled.placed (hroot : Path.isAbsolute p.root = true) (h : Filled p d cache cache')
    (hplaced : Placed p cache) : Placed p cache' := by
  intro path m hm
  obtain heq | ⟨-, m', hm', hload⟩ := h (.module (Path.normalize (Path.join p.root path)))
  · exact hplaced path m (heq.symm.trans hm)
  · obtain rfl : m' = m := Option.some.inj (hm'.symm.trans hm)
    have habs := Path.isAbsolute_join hroot path
    rw [Slot.load, Disk.absolute, Path.absolute_of_normal (Path.isAbsolute_normalize habs)
      (Path.normalize_normalize habs), result_loadModule] at hload
    obtain ⟨file, -, rfl⟩ := Except.map_eq_ok_iff.mp hload
    rfl

/-- **All modules that steps lead to** have the paths under which they are looked up. -/
theorem State.placed_run (hroot : Path.isAbsolute p.root = true) {s : State}
    (h : Placed p s.cache) (steps : List Step) : Placed p (s.run p steps).cache := by
  induction steps generalizing s with
  | nil => exact h
  | cons step rest ih =>
    refine ih ?_
    cases step with
    | ask r => exact (filled_ask p s.disk r s.cache).placed hroot h
    | change f =>
      rw [next]
      split
      · exact h
      · exact h

/-! ### Entries -/

/-- With these caches or more the project answers `e` when it is asked for the entry at `path`. -/
structure Known (p : Project) (cache : Cache) (path : String) (e : ModuleEntry) : Prop where
  root_eq : e.root = p.root
  path_eq : e.module.path = Path.normalize (Path.join p.root path)
  kept : Kept cache (fun d => p.entryAt d path) (some e)

theorem Known.mono {path : String} {e : ModuleEntry} (h : Known p cache path e)
    (hcache : Extends cache cache') : Known p cache' path e :=
  { h with kept := h.kept.mono hcache }

theorem Fills.forAll {f : String → Query α} (h : ∀ path, Fills p d (f path))
    (paths : List String) : Fills p d (Project.forAll f paths) :=
  @Likeness.ask_forAll (fun q _ => Fills p d q) α (likeness_fills p d).toCongruence f f h paths

section Entries

variable {path : String} {e : ModuleEntry} (hroot : Path.isAbsolute p.root = true)
  (hplaced : Placed p cache)

include hroot hplaced

/-- An entry that is answered is known from then on. -/
private theorem known_of_entryAt (h : (p.entryAt d path cache).2.result = .ok (some e)) :
    Known p (p.entryAt d path cache).1 path e := by
  rw [entryAt] at h ⊢
  obtain ⟨found, hm, h⟩ := Query.result_bind_eq_ok_iff.mp h
  rw [Query.bind_of_ok hm]
  cases found with
  | none => cases h
  | some m =>
    obtain ⟨files, hfiles, h⟩ := Query.result_bind_eq_ok_iff.mp h
    obtain rfl := Option.some.inj (Except.ok.inj h)
    obtain ⟨_, -, -, hslot⟩ := slots_of_module hm
    have hfills := (lasting_module p path).fills d cache
    have hpath := hfills.placed hroot hplaced path m hslot
    have habs : Path.isAbsolute m.path = true :=
      hpath ▸ Path.isAbsolute_normalize (Path.isAbsolute_join hroot path)
    have hlasts := lasting_outputs hroot habs
    dsimp only
    rw [Query.bind_of_ok hfiles]
    refine ⟨rfl, hpath, fun cache' hcache d' => ?_⟩
    have hmodule := ((lasting_module p path).kept hm).mono (hlasts.fills d _).extends
    have hentry : Kept (p.outputs d m.path (p.module d path cache).1).1
        (fun d => p.outputs d m.path >>= fun files => pure (some (ModuleEntry.mk p.root m files)))
        (some ⟨p.root, m, files⟩) :=
      (hlasts.kept hfiles).bind (.lift fun _ => rfl)
    obtain ⟨hsame, hfound⟩ := hmodule cache' hcache d'
    beta_reduce
    rw [entryAt, Query.bind_of_ok hfound, hsame]
    exact hentry cache' hcache d'

/-- Each entry in an answer for all paths is known from then on. -/
private theorem known_of_forAll {paths : List String} {found : List (Option ModuleEntry)}
    (h : (forAll (p.entryAt d) paths cache).2.result = .ok found) (hmem : some e ∈ found) :
    ∃ path, Known p (forAll (p.entryAt d) paths cache).1 path e := by
  induction paths generalizing cache found with
  | nil =>
    obtain rfl : [] = found := Except.ok.inj h
    cases hmem
  | cons path rest ih =>
    rw [forAll] at h ⊢
    obtain ⟨here, hhere, h⟩ := Query.result_bind_eq_ok_iff.mp h
    obtain ⟨others, hothers, h⟩ := Query.result_bind_eq_ok_iff.mp h
    obtain rfl : here :: others = found := Except.ok.inj h
    have hask := (likeness_fills p d).ask_entryAt path
    have hafter := (hask cache).placed hroot hplaced
    rw [Query.bind_of_ok hhere, Query.bind_of_ok hothers]
    rcases List.mem_cons.mp hmem with rfl | hmem
    · -- what comes later only fills more slots
      have hrest := Fills.forAll (likeness_fills p d).ask_entryAt rest
      exact ⟨path, (known_of_entryAt hroot hplaced hhere).mono (hrest _).extends⟩
    · exact ih hafter hothers hmem

private theorem known_of_moduleEntry (h : (p.moduleEntry d path cache).2.result = .ok (some e)) :
    Known p (p.moduleEntry d path cache).1 path e := by
  rw [moduleEntry] at h ⊢
  obtain ⟨found, hfound, h⟩ := Query.result_bind_eq_ok_iff.mp h
  rw [Query.bind_of_ok hfound]
  cases found with
  | none =>
    obtain ⟨_, -, h⟩ := Query.result_bind_eq_ok_iff.mp h
    cases Except.ok.inj h
  | some e' =>
    obtain rfl : e' = e := Option.some.inj (Except.ok.inj h)
    dsimp only [Query.pure_apply]
    exact known_of_entryAt hroot hplaced hfound

private theorem known_of_moduleEntries {entries : List ModuleEntry}
    (h : (p.moduleEntries d cache).2.result = .ok entries) (hmem : e ∈ entries) :
    ∃ path, Known p (p.moduleEntries d cache).1 path e := by
  rw [moduleEntries] at h ⊢
  obtain ⟨paths, hpaths, h⟩ := Query.result_bind_eq_ok_iff.mp h
  obtain ⟨found, hfound, h⟩ := Query.result_bind_eq_ok_iff.mp h
  obtain rfl : found.filterMap id = entries := Except.ok.inj h
  obtain ⟨_, hsome, rfl⟩ := List.mem_filterMap.mp hmem
  have hsources := ((lasting_sources p).fills d cache).placed hroot hplaced
  rw [Query.bind_of_ok hpaths, Query.bind_of_ok hfound]
  exact known_of_forAll hroot hsources hfound hsome

private theorem known_of_mainModuleEntry (h : (p.mainModuleEntry d cache).2.result = .ok (some e)) :
    ∃ path, Known p (p.mainModuleEntry d cache).1 path e := by
  have hlikeness := likeness_fills p d
  rw [mainModuleEntry] at h ⊢
  obtain ⟨main, hmain, h⟩ := Query.result_bind_eq_ok_iff.mp h
  have hplaced := (hlikeness.ask_mainFile cache).placed hroot hplaced
  rw [Query.bind_of_ok hmain]
  cases main with
  | none => cases h
  | some main =>
    obtain ⟨paths, hpaths, h⟩ := Query.result_bind_eq_ok_iff.mp h
    have hplaced := (hlikeness.ask_sources _).placed hroot hplaced
    obtain ⟨first, hfirst, h⟩ := Query.result_bind_eq_ok_iff.mp h
    have hplaced := (hlikeness.ask_firstEmitting (mainCandidates main) paths _).placed hroot hplaced
    dsimp only
    rw [Query.bind_of_ok hpaths, Query.bind_of_ok hfirst]
    cases first with
    | none =>
      obtain ⟨_, -, h⟩ := Query.result_bind_eq_ok_iff.mp h
      cases Except.ok.inj h
    | some path =>
      obtain ⟨_, hnote, h⟩ := Query.result_bind_eq_ok_iff.mp h
      dsimp only
      rw [Query.bind_of_ok hnote]
      dsimp only [Query.lift_apply] at h ⊢
      exact ⟨path, known_of_entryAt hroot hplaced h⟩

/-- The entries in an answer to a request. -/
def Request.entries : (r : Request) → r.Answer → List ModuleEntry
  | moduleEntry _, found | mainModuleEntry, found => Option.toList found
  | moduleEntries, found => found
  | _, _ => []

/-- **An entry in an answer** is known from then on. -/
theorem known_of_ask {r : Request} {a : r.Answer} (h : (r.ask p d cache).2.result = .ok a)
    (hmem : e ∈ r.entries a) : ∃ path, Known p (r.ask p d cache).1 path e := by
  cases r with
  | moduleEntry path =>
    rw [Option.mem_toList.mp hmem] at h
    exact ⟨path, known_of_moduleEntry hroot hplaced h⟩
  | moduleEntries => exact known_of_moduleEntries hroot hplaced h hmem
  | mainModuleEntry =>
    rw [Option.mem_toList.mp hmem] at h
    exact known_of_mainModuleEntry hroot hplaced h
  | _ => cases hmem

end Entries

/-! ### Names -/

namespace Known

variable {path : String} {e : ModuleEntry}

/-- The name of an entry is the same from everywhere, and leads from the root to its module. -/
private theorem exists_name (h : Known p cache path e) (hroot : Path.isAbsolute p.root = true)
    (hsame : Path.rootOf e.module.path = Path.rootOf p.root) :
    ∃ name, (∀ d, e.name d = .ok name) ∧
      Path.normalize (Path.join p.root name) = e.module.path := by
  have hjoin := Path.isAbsolute_join hroot path
  have habs : Path.isAbsolute e.module.path = true := h.path_eq ▸ Path.isAbsolute_normalize hjoin
  have hpath : Path.normalize e.module.path = e.module.path := by
    rw [h.path_eq, Path.normalize_normalize hjoin]
  obtain ⟨name, hname⟩ : ∃ name, Path.relative "/" e.module.path p.root = .ok name :=
    Path.exists_relative_iff.mpr (Path.ne_empty_of_isAbsolute habs)
  refine ⟨name, fun d => ?_,
    Path.Folder.normalize_join_relative hroot habs hpath hsame hname⟩
  rw [ModuleEntry.name, h.root_eq, Disk.relative, Path.relative_of_isAbsolute habs hroot d.cwd "/",
    hname]

/-- An entry that is known is answered under every way to its module. -/
private theorem result_moduleEntry (h : Known p cache path e) {name : String}
    (hname : Path.normalize (Path.join p.root name) = e.module.path)
    (hcache : Extends cache cache') (d : Disk) :
    (p.moduleEntry d name cache').2.result = .ok (some e) := by
  have hentry : p.entryAt d name = p.entryAt d path := by
    rw [entryAt, entryAt, module_eq, module_eq, hname, h.path_eq]
  obtain ⟨-, hresult⟩ := h.kept cache' hcache d
  rw [moduleEntry, hentry, Query.bind_of_ok hresult]
  rfl

end Known

/-- During some steps an entry is in the answer to a request. -/
def State.Returns (p : Project) (s : State) (steps : List Step) (e : ModuleEntry) : Prop :=
  ∃ before r after, steps = before ++ .ask r :: after ∧
    ∃ a, (r.ask p (s.run p before).disk (s.run p before).cache).2.result = .ok a ∧ e ∈ r.entries a

/-- An entry is returned when the project is asked for all. -/
private theorem State.exists_returns {s : State} {f : ModuleEntry → α} {l : List α}
    (h : (p.moduleEntries s.disk s.cache).2.result.toOption.map (List.map f) = some l) {a : α}
    (hmem : a ∈ l) : ∃ e, s.Returns p [.ask .moduleEntries] e ∧ f e = a := by
  cases hentries : (p.moduleEntries s.disk s.cache).2.result with
  | error failure =>
    rw [hentries] at h
    cases h
  | ok entries =>
    rw [hentries] at h
    obtain ⟨e, he, heq⟩ := List.mem_map.mp (Option.some.inj h ▸ hmem)
    exact ⟨e, ⟨[], .moduleEntries, [], rfl, entries, hentries, he⟩, heq⟩

/-- **An entry that was returned** is known from then on. -/
theorem State.Returns.known {s : State} {steps : List Step} {e : ModuleEntry}
    (h : s.Returns p steps e) (hroot : Path.isAbsolute p.root = true)
    (hplaced : Placed p s.cache) : ∃ path, Known p (s.run p steps).cache path e := by
  obtain ⟨before, r, after, rfl, a, ha, hmem⟩ := h
  obtain ⟨path, hknown⟩ := known_of_ask hroot (placed_run hroot hplaced before) ha hmem
  refine ⟨path, hknown.mono ?_⟩
  rw [run_append]
  exact extends_run p ((s.run p before).next p (.ask r)) after

/-- **The name of an entry leads back to it.** Whatever a project has returned so far, each entry
has a name, and from then on the entry of that name is the same entry, with the same module and the
same outputs; so entries that have one name are one. That goes for modules outside the root, too. -/
theorem moduleEntry_name {d : Disk} (hcwd : Path.isAbsolute d.cwd = true) (hp : p.OpenOn d)
    (hroot : Path.rootOf p.root ≠ "//") (steps : List Step) :
    (∀ e, State.Returns p ⟨d, {}⟩ steps e → Path.rootOf e.module.path ≠ "//" →
      ∃ name, (∀ d', e.name d' = .ok name) ∧ ∀ later d', (p.moduleEntry d' name
        (State.run p ⟨d, {}⟩ (steps ++ later)).cache).2.result = .ok (some e)) ∧
    ∀ e e', State.Returns p ⟨d, {}⟩ steps e → Path.rootOf e.module.path ≠ "//" →
      State.Returns p ⟨d, {}⟩ steps e' → Path.rootOf e'.module.path ≠ "//" →
        ∀ d', e.name d' = e'.name d' → e = e' := by
  have habs := hp.isAbsolute_root hcwd
  have hall : ∀ e, State.Returns p ⟨d, {}⟩ steps e → Path.rootOf e.module.path ≠ "//" →
      ∃ name, (∀ d', e.name d' = .ok name) ∧ ∀ later d', (p.moduleEntry d' name
        (State.run p ⟨d, {}⟩ (steps ++ later)).cache).2.result = .ok (some e) := by
    intro e he hslashes
    obtain ⟨path, hknown⟩ := he.known habs (placed_empty p)
    have hpath : Path.isAbsolute e.module.path = true :=
      hknown.path_eq ▸ Path.isAbsolute_normalize (Path.isAbsolute_join habs path)
    have hsame : Path.rootOf e.module.path = Path.rootOf p.root :=
      ((Path.isRoot_rootOf hpath).resolve_right hslashes).trans
        ((Path.isRoot_rootOf habs).resolve_right hroot).symm
    obtain ⟨name, hname, hleads⟩ := hknown.exists_name habs hsame
    refine ⟨name, hname, fun later d' => hknown.result_moduleEntry hleads ?_ d'⟩
    rw [State.run_append]
    exact State.extends_run p _ later
  refine ⟨hall, fun e e' he hslashes he' hslashes' d' hsame => ?_⟩
  -- both are answered under the one name
  obtain ⟨name, hname, hanswer⟩ := hall e he hslashes
  obtain ⟨name', hname', hanswer'⟩ := hall e' he' hslashes'
  rw [hname, hname'] at hsame
  obtain rfl := Except.ok.inj hsame
  have hboth := (hanswer [] d').symm.trans (hanswer' [] d')
  exact Option.some.inj (Except.ok.inj hboth)

/-- A package whose source lies beside it. -/
def straying : Disk where
  entries := [("p", .folder [("tsconfig.json", .file
      ⟨Utf8.encode "\x7b\"files\":[\"../x/b.ts\"]\x7d", none, none⟩)]),
    ("x", .folder [("b.ts", .file ⟨[], none, none⟩)])]
  cwd := "/"
  limits := .uniform 8

/-- The project at that package. -/
def strayingProject : Project :=
  openAt straying "p" (some true) none

/-- The name of the source goes up from the package, and leads back to it. -/
theorem moduleEntry_name_straying :
    Path.isAbsolute straying.cwd = true ∧ strayingProject.OpenOn straying ∧
      Path.rootOf strayingProject.root ≠ "//" ∧
      ∃ e, State.Returns strayingProject ⟨straying, {}⟩ [.ask .moduleEntries] e ∧
        Path.rootOf e.module.path ≠ "//" ∧ e.module.path = "/x/b.ts" ∧
        e.name straying = .ok "../x/b.ts" ∧ ∀ later d',
          (strayingProject.moduleEntry d' "../x/b.ts" (State.run strayingProject ⟨straying, {}⟩
            ([.ask .moduleEntries] ++ later)).cache).2.result = .ok (some e) := by
  have hcwd : Path.isAbsolute straying.cwd = true := by decide
  have hopen : strayingProject.OpenOn straying := ⟨"p", some true, none, rfl⟩
  have hslashes : Path.rootOf strayingProject.root ≠ "//" := by decide +kernel
  obtain ⟨e, hreturns, heq⟩ : ∃ e, State.Returns strayingProject ⟨straying, {}⟩
      [.ask .moduleEntries] e ∧ (e.root, e.module.path) = ("/p", "/x/b.ts") :=
    State.exists_returns (l := [("/p", "/x/b.ts")]) (by decide +kernel) (by decide)
  obtain ⟨hfrom, hpath⟩ := Prod.mk.inj heq
  have hslashes' : Path.rootOf e.module.path ≠ "//" := by
    rw [hpath]
    decide
  have hname : e.name straying = .ok "../x/b.ts" := by
    rw [ModuleEntry.name, hfrom, hpath]
    decide +kernel
  obtain ⟨name, hall, hanswer⟩ := (moduleEntry_name hcwd hopen hslashes _).1 e hreturns hslashes'
  obtain rfl := Except.ok.inj (hname.symm.trans (hall straying))
  exact ⟨hcwd, hopen, hslashes, e, hreturns, hslashes', hpath, hname, hanswer⟩

end Project

end ApiOutline
