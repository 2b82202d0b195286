import ApiOutline.Project.Entries
import ApiOutline.Proofs.Config.Loaders

/-!
# Requests to a project

A project is asked for its configuration, its sources, its modules, their entries and the files
compiled from them. `Project.Request` lists what can be asked for, and `Request.ask` is the query
that answers. What a project holds by itself, such as its root and the paths of its two
configuration files, needs no query.

Statements about all requests are proved once, for a relation between queries. A relation that is
kept by bare computations that touch no cache and by running one query after another, a
`Query.Congruence`, holds between the requests of two projects with the same root as soon as it
holds between the few queries at which the caches and the mode come in (`Likeness.ask`). There it
comes from what holds of the loaders (`Likeness.of_loaders`), in particular if it is a statement
about single computations (`Likeness.of_outcomes`).
-/

namespace ApiOutline

/-! ### How queries run -/

namespace Query

variable {α β : Type} {q : Query α} {f : α → Query β} {cache : Project.Cache}

/-- After an answer the next query goes on from the caches as they were left. -/
theorem bind_of_ok {a : α} (h : (q cache).2.result = .ok a) :
    (q >>= f) cache = ((f a (q cache).1).1,
      ⟨(q cache).2.trace ++ (f a (q cache).1).2.trace, (f a (q cache).1).2.result⟩) := by
  change q.andThen f cache = _
  simp only [andThen, h]

/-- After a failure the caches stay as they were left. -/
theorem bind_of_error {e : Failure} (h : (q cache).2.result = .error e) :
    (q >>= f) cache = ((q cache).1, ⟨(q cache).2.trace, .error e⟩) := by
  change q.andThen f cache = _
  simp only [andThen, h]

/-- After an answer that leaves no trace it is as if the next query were the first. -/
theorem bind_of_eq_ok {cache' : Project.Cache} {a : α} (h : q cache = (cache', .ok a)) :
    (q >>= f) cache = f a cache' := by
  have hok : (q cache).2.result = .ok a := by rw [h, Outcome.result_ok]
  rw [bind_of_ok hok, h]
  rfl

/-- The outcome of one query after another. -/
theorem snd_bind : ((q >>= f) cache).2 = (q cache).2.andThen fun a => (f a (q cache).1).2 := by
  cases h : (q cache).2.result with
  | ok a =>
    rw [bind_of_ok h]
    simp only [Outcome.andThen, h]
  | error e => rw [bind_of_error h, Outcome.andThen_of_error h]

theorem result_bind_eq_ok_iff {b : β} : ((q >>= f) cache).2.result = .ok b ↔
    ∃ a, (q cache).2.result = .ok a ∧ (f a (q cache).1).2.result = .ok b := by
  rw [snd_bind, Outcome.result_andThen_eq_ok_iff]

variable {get? : Project.Cache → Option α} {store : Project.Cache → α → Project.Cache}

/-- An empty cache is filled with what is loaded. -/
theorem cached_of_ok (hget : get? cache = none) {a : α} (h : (q cache).2.result = .ok a) :
    cached get? store q cache = (store (q cache).1 a, (q cache).2) := by
  simp only [cached, hget, h]

/-- An empty cache stays empty when loading fails. -/
theorem cached_of_error (hget : get? cache = none) {e : Failure}
    (h : (q cache).2.result = .error e) : cached get? store q cache = q cache := by
  simp only [cached, hget, h]

/-- The outcome at an empty cache is that of loading. -/
theorem snd_cached (hget : get? cache = none) : (cached get? store q cache).2 = (q cache).2 := by
  cases h : (q cache).2.result with
  | ok a => rw [cached_of_ok hget h]
  | error e => rw [cached_of_error hget h]

end Query

/-! ### Relations between queries -/

/-- A relation between queries that is kept by the operations from which queries are built. -/
structure Query.Congruence (R : ∀ {α : Type}, Query α → Query α → Prop) : Prop where
  lift : ∀ {α : Type} {x : Outcome Failure α}, x.Bare → R (.lift x) (.lift x)
  bind : ∀ {α β : Type} {q q' : Query α} {f f' : α → Query β}, R q q' → (∀ a, R (f a) (f' a)) →
    R (q >>= f) (q' >>= f')

namespace Query.Congruence

variable {R : ∀ {α : Type}, Query α → Query α → Prop} {α β : Type}

theorem pure (h : Congruence R) (a : α) : R (pure a) (pure a) :=
  h.lift (.ok a)

/-- A query continued with a note and an answer. -/
theorem note (h : Congruence R) {level : Log.Level} {channel : Log.Channel}
    (hbare : ¬(level = .warning ∧ channel = .config)) (text : String) (a : α) :
    R (do .lift (.log level channel text); return a)
      (do .lift (.log level channel text); return a) :=
  h.bind (h.lift (.log hbare text)) fun _ => h.pure a

end Query.Congruence

namespace Project

/-! ### Requests -/

/-- What a project can be asked for. -/
inductive Request where
  | package
  | compiler
  | options
  | mainFile
  | outDir
  | declarationDir
  | rootDir
  | sources
  | module (path : String)
  | modules
  | outputs (path : String)
  | moduleEntry (path : String)
  | moduleEntries
  | mainModuleEntry

namespace Request

/-- What the answer to a request is. -/
def Answer : Request → Type
  | package | compiler | options => Json.Fields
  | mainFile | outDir | declarationDir => Option String
  | rootDir => String
  | sources | outputs _ => List String
  | module _ => Option Module
  | modules => List (Option Module)
  | moduleEntry _ | mainModuleEntry => Option ModuleEntry
  | moduleEntries => List ModuleEntry

/-- The query that answers a request. -/
def ask (p : Project) (d : Disk) : (r : Request) → Query r.Answer
  | package => p.package d
  | compiler => p.compiler d
  | options => p.options d
  | mainFile => p.mainFile d
  | outDir => p.outDir d
  | declarationDir => p.declarationDir d
  | rootDir => p.rootDir d
  | sources => p.sources d
  | module path => p.module d path
  | modules => p.modules d
  | outputs path => p.outputs d path
  | moduleEntry path => p.moduleEntry d path
  | moduleEntries => p.moduleEntries d
  | mainModuleEntry => p.mainModuleEntry d

end Request

/-! ### The mode does not matter -/

section Mode

variable (root : String) (d : Disk) (strict strict' : Bool)

private theorem kept_eq (exclude paths : List String) :
    kept ⟨root, strict⟩ d exclude paths = kept ⟨root, strict'⟩ d exclude paths := by
  induction paths with
  | nil => rfl
  | cons path rest ih =>
    rw [kept, kept, ih]
    rfl

private theorem includeEntry_eq (exclude : List String) :
    includeEntry ⟨root, strict⟩ d exclude = includeEntry ⟨root, strict'⟩ d exclude := by
  funext entry
  simp only [includeEntry, kept_eq root d strict strict' exclude]

/-- Which sources a configuration names does not depend on the mode. -/
private theorem configuredSources_eq (config : Json.Fields) :
    configuredSources ⟨root, strict⟩ d config = configuredSources ⟨root, strict'⟩ d config := by
  simp only [configuredSources, includeEntry_eq root d strict strict']
  rfl

end Mode

/-! ### Bare computations -/

section Bare

open Outcome (Bare)

variable (p : Project) (d : Disk)

private theorem bare_gather {f : Json → Outcome Failure (List String)} (h : ∀ entry, (f entry).Bare)
    (entries : List Json) : (gather f entries).Bare := by
  induction entries with
  | nil => exact .ok []
  | cons entry rest ih =>
    rw [gather]
    exact .bind (h entry) fun here => .bind ih fun others => .ok (here ++ others)

private theorem bare_fileEntry (entry : Json) : (p.fileEntry d entry).Bare := by
  rw [fileEntry]
  split
  · exact .ok _
  · exact .bind (.log (by decide) _) fun _ => .ok []

private theorem bare_includeEntry (exclude : List String) (entry : Json) :
    (p.includeEntry d exclude entry).Bare := by
  rw [includeEntry]
  refine .bind (.ofMapError nofun) fun pattern => ?_
  exact .bind (.ofMapError nofun) fun found => .ofPath _

private theorem bare_configuredSources (config : Json.Fields) :
    (p.configuredSources d config).Bare := by
  rw [configuredSources]
  split
  · exact .ok none
  · refine .bind (bare_gather (p.bare_fileEntry d) _) fun named => ?_
    exact .bind (bare_gather (p.bare_includeEntry d _) _) fun found => .ok _

private theorem bare_discover (folder : String) (excluded : List String) :
    (Sources.discover d folder excluded).Bare := by
  rw [Sources.discover]
  refine .bind (.ofMapError nofun) fun entries => ?_
  dsimp only
  split
  · exact .bind (.fail nofun) fun _ => .bind (.log (by decide) _) fun _ => .ok _
  · exact .bind (.log (by decide) _) fun _ => .ok _

private theorem bare_loadModule (path : String) : (loadModule d path).Bare := by
  rw [loadModule]
  split
  · split
    · exact .bind (.log (by decide) _) fun _ => .fail nofun
    · split
      · exact .bind (.log (by decide) _) fun _ => .fail nofun
      · exact .fail nofun
  · refine .bind ?_ fun m => .bind (.log (by decide) _) fun _ => .ok m
    rw [Module.ofTree]
    refine .bind (.log (by decide) _) fun _ => .bind (.log (by decide) _) fun _ => ?_
    split
    · exact .bind (.log (by decide) _) fun _ => .ok _
    · exact .ok _

end Bare

/-- The module at a normalized path, read at most once. -/
def cachedModule (d : Disk) (full : String) : Query Module :=
  .cached (fun cache => cache.modules.lookup full)
    (fun cache m => { cache with modules := (full, m) :: cache.modules })
    (.lift (loadModule d (d.absolute full)))

/-! ### Projects that are alike -/

/-- A relation between queries holds wherever the caches and the mode come in, for two projects at
`root` with the modes `strict` and `strict'`. -/
structure Likeness (R : ∀ {α : Type}, Query α → Query α → Prop) (d : Disk) (root : String)
    (strict strict' : Bool) : Prop extends Query.Congruence R where
  package : R (package ⟨root, strict⟩ d) (package ⟨root, strict'⟩ d)
  compiler : R (compiler ⟨root, strict⟩ d) (compiler ⟨root, strict'⟩ d)
  options : ∀ config, R (.lift (Config.compilerOptions config strict))
    (.lift (Config.compilerOptions config strict'))
  mainFile : ∀ package, R (.lift (Config.mainFile package root strict))
    (.lift (Config.mainFile package root strict'))
  sources : R (loadSources ⟨root, strict⟩ d) (loadSources ⟨root, strict'⟩ d) →
    R (sources ⟨root, strict⟩ d) (sources ⟨root, strict'⟩ d)
  module : ∀ full, R (cachedModule d full) (cachedModule d full)

namespace Likeness

variable {R : ∀ {α : Type}, Query α → Query α → Prop} {d : Disk} {root : String}
  {strict strict' : Bool}

/-- What holds of the loaders in the two modes, and is kept from there on by queries in a row and by
caches, holds of the projects. -/
theorem of_loaders {S : ∀ {α : Type}, Outcome Failure α → Outcome Failure α → Prop}
    (loaders : Outcome.Congruence S strict strict')
    (lift : ∀ {α : Type} {x y : Outcome Failure α}, S x y → R (.lift x) (.lift y))
    (bind : ∀ {α β : Type} {q q' : Query α} {f f' : α → Query β}, R q q' →
      (∀ a, R (f a) (f' a)) → R (q >>= f) (q' >>= f'))
    (cached : ∀ {α : Type} {get? : Cache → Option α} {store : Cache → α → Cache}
      {load load' : Query α}, R load load' →
        R (.cached get? store load) (.cached get? store load')) :
    Likeness R d root strict strict' :=
  { lift := fun h => lift (loaders.bare h)
    bind := bind
    package := cached (lift (loaders.loadWithin _ d _ false))
    compiler := cached (lift (loaders.loadLevel d _ _ [] _))
    options := fun config => lift (loaders.compilerOptions config)
    mainFile := fun package => lift (loaders.mainFile package root)
    sources := cached
    module := fun _ => cached (lift (loaders.bare (bare_loadModule d _))) }

/-- A statement about single computations that holds of the loaders holds of the project, from
whatever caches it goes on. -/
theorem of_outcomes {P : ∀ {α : Type}, Outcome Failure α → Prop}
    (loaders : Outcome.Congruence (fun x _ => P x) strict strict) :
    Likeness (fun q _ => ∀ cache, P (q cache).2) d root strict strict := by
  refine .of_loaders loaders (fun h _ => h) (fun {α β q q' f f'} hq hf cache => ?_)
    fun {α get? store load load'} h cache => ?_
  · rw [Query.snd_bind]
    exact loaders.bind (y := (q cache).2) (g := fun a => (f a (q cache).1).2) (hq cache)
      fun a => hf a _
  · cases hget : get? cache with
    | some a =>
      rw [Query.cached_of_some hget]
      exact loaders.pure a
    | none =>
      rw [Query.snd_cached hget]
      exact h cache

theorem ask_options (h : Likeness R d root strict strict') :
    R (Project.options ⟨root, strict⟩ d) (Project.options ⟨root, strict'⟩ d) :=
  h.bind h.compiler h.options

theorem ask_mainFile (h : Likeness R d root strict strict') :
    R (Project.mainFile ⟨root, strict⟩ d) (Project.mainFile ⟨root, strict'⟩ d) :=
  h.bind h.package h.mainFile

theorem ask_optionFolder (h : Likeness R d root strict strict') (name : String) :
    R (optionFolder ⟨root, strict⟩ d name) (optionFolder ⟨root, strict'⟩ d name) := by
  refine h.bind h.ask_options fun options => ?_
  split
  · exact h.pure _
  · exact h.pure _

theorem ask_loadSources (h : Likeness R d root strict strict') :
    R (loadSources ⟨root, strict⟩ d) (loadSources ⟨root, strict'⟩ d) := by
  refine h.bind h.compiler fun config => ?_
  rw [configuredSources_eq root d strict strict']
  refine h.bind (h.lift (bare_configuredSources _ d config)) fun configured => ?_
  cases configured with
  | some paths =>
    exact h.bind (h.pure paths) fun paths => h.note (by decide) _ paths
  | none =>
    refine h.bind (h.ask_optionFolder "outDir") fun out => ?_
    refine h.bind (h.ask_optionFolder "declarationDir") fun declarations => ?_
    exact h.bind (h.lift (bare_discover d root _)) fun paths => h.note (by decide) _ paths

theorem ask_sources (h : Likeness R d root strict strict') :
    R (Project.sources ⟨root, strict⟩ d) (Project.sources ⟨root, strict'⟩ d) :=
  h.sources h.ask_loadSources

theorem ask_rootDir (h : Likeness R d root strict strict') :
    R (rootDir ⟨root, strict⟩ d) (rootDir ⟨root, strict'⟩ d) := by
  refine h.bind (h.ask_optionFolder "rootDir") fun folder => ?_
  cases folder with
  | some folder => exact h.pure folder
  | none =>
    refine h.bind h.ask_sources fun paths => ?_
    dsimp only
    split
    · exact h.pure _
    · exact h.pure _

theorem ask_module (h : Likeness R d root strict strict') (path : String) :
    R (Project.module ⟨root, strict⟩ d path) (Project.module ⟨root, strict'⟩ d path) := by
  refine h.bind h.ask_sources fun paths => ?_
  dsimp only
  split
  · exact h.bind (h.module _) fun m => h.pure (some m)
  · exact h.note (by decide) _ none

theorem ask_forAll {α : Type} (h : Query.Congruence R) {f f' : String → Query α}
    (hf : ∀ path, R (f path) (f' path)) (paths : List String) :
    R (forAll f paths) (forAll f' paths) := by
  induction paths with
  | nil => exact h.pure []
  | cons path rest ih =>
    exact h.bind (hf path) fun here => h.bind ih fun others => h.pure (here :: others)

theorem ask_outputs (h : Likeness R d root strict strict') (source : String) :
    R (outputs ⟨root, strict⟩ d source) (outputs ⟨root, strict'⟩ d source) := by
  rw [outputs, outputs]
  split
  · exact h.pure []
  · dsimp only
    split
    · exact h.pure []
    · refine h.bind h.ask_options fun options => h.bind h.ask_rootDir fun folder => ?_
      refine h.bind (h.lift (.ofPath _)) fun way => ?_
      refine h.bind (h.ask_optionFolder "outDir") fun out => ?_
      split
      · exact h.bind (h.ask_optionFolder "declarationDir") fun declarations => h.pure _
      · exact h.pure _

theorem ask_entryAt (h : Likeness R d root strict strict') (path : String) :
    R (entryAt ⟨root, strict⟩ d path) (entryAt ⟨root, strict'⟩ d path) := by
  refine h.bind (h.ask_module path) fun found => ?_
  cases found with
  | none => exact h.pure none
  | some m => exact h.bind (h.ask_outputs m.path) fun outputs => h.pure _

theorem ask_firstEmitting (h : Likeness R d root strict strict') (candidates paths : List String) :
    R (firstEmitting ⟨root, strict⟩ d candidates paths)
      (firstEmitting ⟨root, strict'⟩ d candidates paths) := by
  induction paths with
  | nil => exact h.pure none
  | cons path rest ih =>
    refine h.bind (h.ask_outputs path) fun emitted => ?_
    split
    · exact h.pure _
    · exact ih

theorem ask_mainModuleEntry (h : Likeness R d root strict strict') :
    R (mainModuleEntry ⟨root, strict⟩ d) (mainModuleEntry ⟨root, strict'⟩ d) := by
  refine h.bind h.ask_mainFile fun main => ?_
  cases main with
  | none => exact h.pure none
  | some main =>
    refine h.bind h.ask_sources fun paths => h.bind (h.ask_firstEmitting _ paths) fun first => ?_
    cases first with
    | none => exact h.note (by decide) _ none
    | some path => exact h.bind (h.lift (.log (by decide) _)) fun _ => h.ask_entryAt path

/-- **All requests** of two projects that are alike are related. -/
theorem ask (h : Likeness R d root strict strict') (r : Request) :
    R (r.ask ⟨root, strict⟩ d) (r.ask ⟨root, strict'⟩ d) := by
  cases r with
  | package => exact h.package
  | compiler => exact h.compiler
  | options => exact h.ask_options
  | mainFile => exact h.ask_mainFile
  | outDir => exact h.ask_optionFolder "outDir"
  | declarationDir => exact h.ask_optionFolder "declarationDir"
  | rootDir => exact h.ask_rootDir
  | sources => exact h.ask_sources
  | module path => exact h.ask_module path
  | modules => exact h.bind h.ask_sources (ask_forAll h.toCongruence h.ask_module)
  | outputs path => exact h.ask_outputs path
  | moduleEntry path =>
    refine h.bind (h.ask_entryAt path) fun entry => ?_
    cases entry with
    | some entry => exact h.pure (some entry)
    | none => exact h.note (by decide) _ none
  | moduleEntries =>
    refine h.bind h.ask_sources fun paths => ?_
    exact h.bind (ask_forAll h.toCongruence h.ask_entryAt paths) fun entries =>
      h.pure (entries.filterMap id)
  | mainModuleEntry => exact h.ask_mainModuleEntry

end Likeness

end Project

end ApiOutline
