import ApiOutline.Disk.Change
import ApiOutline.Proofs.Project.Entries

/-!
# What a project has loaded stays loaded

A project is asked one request after the other while the disk is written to and removed from in
between. What it has loaded it keeps: a configuration, the list of sources or a module, once
answered, is answered so for ever, without looking at the disk again, also for a module that is
asked for under another spelling of its path. A request that fails leaves every filled cache as it
was, and an empty cache is only ever filled with the whole answer of its loader on the disk of that
moment, so a loader that failed is tried again on the disk as it is by then (`answers_last`).

The places that can be filled are the *slots*. One request is described by what it does to each of
them (`Filled`): a slot stays as it is, or was empty and holds what its loader gave. What holds for
a run of steps follows by induction.

The loader of the sources looks at the disk and at the configuration of the compiler, and that one
stays once it is loaded. So sources that are found late may come from the disk of that moment and
from a configuration of an earlier one; nothing here says that they are the sources that a fresh
project would have.
-/

namespace ApiOutline

namespace Project

variable {p : Project} {d : Disk} {α β : Type}

/-! ### Slots -/

/-- What a project loads at most once: its two configurations, the list of its sources, and the
module at each normalized path. -/
inductive Slot where
  | package
  | compiler
  | sources
  | module (full : String)

namespace Slot

/-- What a slot can hold. -/
abbrev Value : Slot → Type
  | package | compiler => Json.Fields
  | sources => List String
  | module _ => Module

/-- What a slot holds. -/
def get? : (slot : Slot) → Cache → Option slot.Value
  | package, cache => cache.package
  | compiler, cache => cache.compiler
  | sources, cache => cache.sources
  | module full, cache => cache.modules.lookup full

/-- The caches with a slot filled. -/
def store : (slot : Slot) → Cache → slot.Value → Cache
  | package, cache, a => { cache with package := some a }
  | compiler, cache, a => { cache with compiler := some a }
  | sources, cache, a => { cache with sources := some a }
  | module full, cache, a => { cache with modules := (full, a) :: cache.modules }

/-- The loader of a slot. -/
def loader (p : Project) (d : Disk) : (slot : Slot) → Query slot.Value
  | package => .lift (Config.load d p.packagePath p.strict false)
  | compiler => .lift (Config.loadChain d p.compilerPath p.strict)
  | sources => p.loadSources d
  | module full => .lift (loadModule d (d.absolute full))

/-- What the loader of a slot does on a disk. Sources are looked for with the configuration of the
compiler that is there already, if one is. -/
def load (p : Project) (d : Disk) (cache : Cache) : (slot : Slot) → Outcome Failure slot.Value
  | package => Config.load d p.packagePath p.strict false
  | compiler => Config.loadChain d p.compilerPath p.strict
  | sources => (p.loadSources d { compiler := cache.compiler }).2
  | module full => loadModule d (d.absolute full)

/-- The query that is answered from a slot. -/
def query (p : Project) (d : Disk) (slot : Slot) : Query slot.Value :=
  .cached slot.get? slot.store (slot.loader p d)

private theorem query_module (p : Project) (d : Disk) (full : String) :
    query p d (module full) = cachedModule d full := rfl

@[simp]
theorem get?_store (slot : Slot) (cache : Cache) (a : slot.Value) :
    slot.get? (slot.store cache a) = some a := by
  cases slot with
  | package => rfl
  | compiler => rfl
  | sources => rfl
  | module full => exact List.lookup_cons_self

/-- Filling a slot leaves the others as they are. -/
private theorem get?_store_of_ne {slot other : Slot} (h : other ≠ slot) (cache : Cache)
    (a : slot.Value) :
    other.get? (slot.store cache a) = other.get? cache := by
  cases slot <;> cases other
  case module.module full full' =>
    have hne : (full' == full) = false := by simpa using fun heq => h (congrArg module heq)
    exact List.lookup_cons.trans (by rw [hne]; rfl)
  all_goals first | rfl | exact absurd rfl h

end Slot

/-! ### Sources from a stored configuration -/

/-- Once the configuration of the compiler is there, a query neither fills nor reads another
cache. -/
def Settled (config : Json.Fields) (q : Query α) : Prop :=
  ∃ x, ∀ cache : Cache, cache.compiler = some config → q cache = (cache, x)

namespace Settled

variable {config : Json.Fields}

theorem lift (x : Outcome Failure α) : Settled config (.lift x) :=
  ⟨x, fun _ _ => rfl⟩

theorem bind {q : Query α} {f : α → Query β} (hq : Settled config q)
    (hf : ∀ a, Settled config (f a)) : Settled config (q >>= f) := by
  obtain ⟨x, hx⟩ := hq
  cases hresult : x.result with
  | error e =>
    refine ⟨⟨x.trace, .error e⟩, fun cache h => ?_⟩
    have herror : (q cache).2.result = .error e := by rw [hx cache h, hresult]
    rw [Query.bind_of_error herror, hx cache h]
  | ok a =>
    obtain ⟨y, hy⟩ := hf a
    refine ⟨⟨x.trace ++ y.trace, y.result⟩, fun cache h => ?_⟩
    have hok : (q cache).2.result = .ok a := by rw [hx cache h, hresult]
    rw [Query.bind_of_ok hok, hx cache h, hy cache h]

theorem compiler (p : Project) (d : Disk) : Settled config (p.compiler d) :=
  ⟨.ok config, fun _ h => Query.cached_of_some h⟩

theorem optionFolder (p : Project) (d : Disk) (name : String) :
    Settled config (p.optionFolder d name) := by
  refine .bind (.bind (.compiler p d) fun config => .lift _) fun options => ?_
  split
  · exact .lift _
  · exact .lift _

end Settled

/-- Sources are looked for once the configuration of the compiler is there. -/
private theorem exists_loadSources_eq (p : Project) (d : Disk) :
    ∃ find : Json.Fields → Query (List String), p.loadSources d = p.compiler d >>= find ∧
      ∀ config, Settled config (find config) := by
  refine ⟨_, rfl, fun config => .bind (.lift _) fun configured => ?_⟩
  cases configured with
  | some paths => exact .bind (.lift _) fun paths => .bind (.lift _) fun _ => .lift _
  | none =>
    refine .bind (.optionFolder p d "outDir") fun out => ?_
    refine .bind (.optionFolder p d "declarationDir") fun declarations => ?_
    exact .bind (.lift _) fun paths => .bind (.lift _) fun _ => .lift _

private theorem compiler_of_result {cache : Cache} {config : Json.Fields}
    (h : (p.compiler d cache).2.result = .ok config) :
    (p.compiler d cache).1.compiler = some config := by
  cases hget : cache.compiler with
  | some stored =>
    rw [compiler, Query.cached_of_some hget] at h ⊢
    rw [hget, Except.ok.inj h]
  | none =>
    rw [compiler, Query.snd_cached hget] at h
    rw [compiler, Query.cached_of_ok hget h]

/-- **Loading sources** is loading the configuration of the compiler, unless it is there, and
looking for sources with it. -/
theorem snd_loadSources (p : Project) (d : Disk) (cache : Cache) :
    (p.loadSources d cache).2 = (p.compiler d cache).2.andThen fun config =>
      (p.loadSources d { compiler := some config }).2 := by
  obtain ⟨find, hload, hfind⟩ := exists_loadSources_eq p d
  have hstored (config : Json.Fields) : (p.loadSources d { compiler := some config }).2 =
      (find config { compiler := some config }).2 := by
    have hcompiler : p.compiler d { compiler := some config } =
        ({ compiler := some config }, .ok config) := Query.cached_of_some rfl
    rw [hload, Query.snd_bind, hcompiler, Outcome.ok_andThen]
  rw [hload, Query.snd_bind]
  refine Outcome.andThen_congr fun config hconfig => ?_
  obtain ⟨x, hx⟩ := hfind config
  rw [← hload, hstored, hx _ (compiler_of_result hconfig), hx _ rfl]

/-- Of the caches, loading sources looks at the configuration of the compiler alone. -/
private theorem snd_loadSources_compiler (p : Project) (d : Disk) (cache : Cache) :
    (p.loadSources d cache).2 = (p.loadSources d { compiler := cache.compiler }).2 := by
  have hcompiler : (p.compiler d cache).2 = (p.compiler d { compiler := cache.compiler }).2 := by
    cases hget : cache.compiler with
    | some config =>
      have hstored (c : Cache) (h : c.compiler = some config) : p.compiler d c = (c, .ok config) :=
        Query.cached_of_some h
      rw [hstored _ hget, hstored _ rfl]
    | none => rw [compiler, Query.snd_cached hget, Query.snd_cached rfl, Query.lift_apply,
        Query.lift_apply]
  rw [snd_loadSources, hcompiler, ← snd_loadSources]

/-- The configuration that is there may as well be loaded on the spot, if that is what it was. -/
private theorem result_loadSources_of_loaded {config : Json.Fields}
    (h : (Config.loadChain d p.compilerPath p.strict).result = .ok config) :
    (p.loadSources d { compiler := some config }).2.result = (p.loadSources d {}).2.result := by
  rw [snd_loadSources p d {}, Outcome.result_andThen, compiler, Query.snd_cached rfl,
    Query.lift_apply, h]
  rfl

/-! ### What a slot answers -/

namespace Slot

variable {slot : Slot} {cache : Cache} {a : slot.Value}

private theorem snd_loader (p : Project) (d : Disk) (slot : Slot) (cache : Cache) :
    (slot.loader p d cache).2 = slot.load p d cache := by
  cases slot with
  | sources => exact snd_loadSources_compiler p d cache
  | _ => simp only [loader, load, Query.lift_apply]

/-- A filled slot answers with what it holds, whatever the disk. -/
theorem query_of_some (h : slot.get? cache = some a) (d : Disk) :
    slot.query p d cache = (cache, .ok a) := by
  rw [query, Query.cached_of_some h]

/-- An empty slot answers with what its loader gives. -/
private theorem query_of_none (h : slot.get? cache = none) (d : Disk) :
    (slot.query p d cache).2 = slot.load p d cache := by
  rw [query, Query.snd_cached h, snd_loader]

/-- An answer is kept. -/
theorem get?_query (slot : Slot) {a : slot.Value} (h : (slot.query p d cache).2.result = .ok a) :
    slot.get? (slot.query p d cache).1 = some a := by
  cases hget : slot.get? cache with
  | some b =>
    rw [query_of_some hget] at h ⊢
    rw [hget, Except.ok.inj h]
  | none =>
    rw [query_of_none hget, ← snd_loader] at h
    rw [query, Query.cached_of_ok hget h, get?_store]

end Slot

/-! ### What one request does to the slots -/

/-- Caches that came about on a disk from others: each slot is as it was, or was empty and holds
what its loader gave. -/
def Filled (p : Project) (d : Disk) (cache cache' : Cache) : Prop :=
  ∀ slot : Slot, slot.get? cache' = slot.get? cache ∨ slot.get? cache = none ∧
    ∃ a, slot.get? cache' = some a ∧ (slot.load p d cache).result = .ok a

namespace Filled

variable {cache cache' cache'' : Cache}

theorem refl (p : Project) (d : Disk) (cache : Cache) : Filled p d cache cache :=
  fun _ => .inl rfl

/-- A loader gives the same before and after others of the same moment. -/
theorem result_load (h : Filled p d cache cache') (slot : Slot) :
    (slot.load p d cache').result = (slot.load p d cache).result := by
  cases slot with
  | sources =>
    obtain heq | ⟨hnone, config, hsome, hload⟩ := h .compiler
    · have hcompiler : cache'.compiler = cache.compiler := heq
      simp only [Slot.load, hcompiler]
    · have hcompiler : cache.compiler = none := hnone
      have hcompiler' : cache'.compiler = some config := hsome
      simp only [Slot.load, hcompiler, hcompiler']
      exact result_loadSources_of_loaded hload
  | _ => rfl

theorem trans (h : Filled p d cache cache') (h' : Filled p d cache' cache'') :
    Filled p d cache cache'' := by
  intro slot
  obtain heq' | ⟨hnone', a, hsome', hload'⟩ := h' slot
  · rw [heq']
    exact h slot
  · rw [h.result_load] at hload'
    obtain heq | ⟨-, b, hsome, -⟩ := h slot
    · exact .inr ⟨heq ▸ hnone', a, hsome', hload'⟩
    · -- what is filled first is not filled again
      rw [hsome] at hnone'
      cases hnone'

/-- An empty slot is filled with what its loader gave. -/
theorem store (h : Filled p d cache cache') {slot : Slot} {a : slot.Value}
    (hnone : slot.get? cache = none) (hload : (slot.load p d cache).result = .ok a) :
    Filled p d cache (slot.store cache' a) := by
  intro other
  by_cases hother : other = slot
  · subst hother
    exact .inr ⟨hnone, a, Slot.get?_store other cache' a, hload⟩
  · rw [Slot.get?_store_of_ne hother]
    exact h other

end Filled

/-- A filled slot stays as it is. -/
theorem Filled.get?_of_some {cache cache' : Cache} (h : Filled p d cache cache') {slot : Slot}
    {a : slot.Value} (hsome : slot.get? cache = some a) : slot.get? cache' = some a := by
  obtain heq | ⟨hnone, -⟩ := h slot
  · rw [heq, hsome]
  · rw [hsome] at hnone
    cases hnone

/-- From all caches a query only fills slots. -/
def Fills (p : Project) (d : Disk) (q : Query α) : Prop :=
  ∀ cache, Filled p d cache (q cache).1

namespace Fills

theorem lift (x : Outcome Failure α) : Fills p d (.lift x) :=
  fun cache => .refl p d cache

theorem bind {q : Query α} {f : α → Query β} (hq : Fills p d q) (hf : ∀ a, Fills p d (f a)) :
    Fills p d (q >>= f) := by
  intro cache
  cases hresult : (q cache).2.result with
  | error e =>
    rw [Query.bind_of_error hresult]
    exact hq cache
  | ok a =>
    rw [Query.bind_of_ok hresult]
    exact (hq cache).trans (hf a _)

/-- A query that is answered from a slot fills it when its loader gives something. -/
theorem query (slot : Slot) (h : Fills p d (slot.loader p d)) : Fills p d (slot.query p d) := by
  intro cache
  cases hget : slot.get? cache with
  | some a =>
    rw [Slot.query_of_some hget]
    exact .refl p d cache
  | none =>
    cases hload : (slot.loader p d cache).2.result with
    | error e =>
      -- a loader that fails leaves the slot empty, and what was filled on the way filled
      rw [Slot.query, Query.cached_of_error hget hload]
      exact h cache
    | ok a =>
      rw [Slot.query, Query.cached_of_ok hget hload]
      rw [Slot.snd_loader] at hload
      exact (h cache).store hget hload

end Fills

theorem likeness_fills (p : Project) (d : Disk) :
    Likeness (fun q _ => Fills p d q) d p.root p.strict p.strict :=
  { lift := fun _ => .lift _
    bind := .bind
    package := Fills.query .package (.lift _)
    compiler := Fills.query .compiler (.lift _)
    options := fun _ => .lift _
    mainFile := fun _ => .lift _
    sources := fun h => Fills.query .sources h
    module := fun full => Fills.query (.module full) (.lift _) }

/-- **One request**, answered or not, leaves each slot as it was or fills it with the whole answer
of its loader. -/
theorem filled_ask (p : Project) (d : Disk) (r : Request) (cache : Cache) :
    Filled p d cache (r.ask p d cache).1 :=
  (likeness_fills p d).ask r cache

/-! ### Requests and changes of the disk -/

/-- The disk as it is, and what a project has loaded so far. -/
structure State where
  disk : Disk
  cache : Cache := {}

/-- What can happen next. -/
inductive Step where
  | ask (r : Request)
  /-- The disk is changed, for instance by `Disk.write` or `Disk.remove`. -/
  | change (f : Disk → Except Disk.Fault Disk)

namespace State

/-- A request fills caches; a change that fails leaves the disk as it was. -/
def next (p : Project) (s : State) : Step → State
  | .ask r => { s with cache := (r.ask p s.disk s.cache).1 }
  | .change f =>
    match f s.disk with
    | .ok disk => { s with disk }
    | .error _ => s

/-- The state after some steps. -/
def run (p : Project) (s : State) (steps : List Step) : State :=
  steps.foldl (next p) s

variable {s : State} {slot : Slot} {a : slot.Value}

/-- A step leaves a slot as it was, or is a request that fills it. -/
private theorem get?_next (p : Project) (s : State) (step : Step) (slot : Slot) :
    slot.get? (s.next p step).cache = slot.get? s.cache ∨ slot.get? s.cache = none ∧
      ∃ r a, step = .ask r ∧ slot.get? (s.next p step).cache = some a ∧
        (slot.load p s.disk s.cache).result = .ok a := by
  cases step with
  | ask r =>
    obtain heq | ⟨hnone, a, hsome, hload⟩ := filled_ask p s.disk r s.cache slot
    · exact .inl heq
    · exact .inr ⟨hnone, r, a, rfl, hsome, hload⟩
  | change f =>
    rw [next]
    split
    · exact .inl rfl
    · exact .inl rfl

/-- **A filled slot stays** as it is, whatever happens. -/
theorem get?_run_of_some (slot : Slot) {a : slot.Value} (h : slot.get? s.cache = some a)
    (steps : List Step) : slot.get? (s.run p steps).cache = some a := by
  induction steps generalizing s with
  | nil => exact h
  | cons step rest ih =>
    refine ih ?_
    obtain heq | ⟨hnone, -⟩ := get?_next p s step slot
    · rw [heq, h]
    · rw [h] at hnone
      cases hnone

/-- **A slot was filled** by a request, with what its loader gave at that moment. -/
theorem exists_load_of_run {steps : List Step} (hnone : slot.get? s.cache = none)
    (h : slot.get? (s.run p steps).cache = some a) :
    ∃ before r after, steps = before ++ .ask r :: after ∧
      slot.get? (s.run p before).cache = none ∧
      (slot.load p (s.run p before).disk (s.run p before).cache).result = .ok a := by
  induction steps generalizing s with
  | nil =>
    rw [show s.run p [] = s from rfl, hnone] at h
    cases h
  | cons step rest ih =>
    obtain heq | ⟨-, r, b, rfl, hsome, hload⟩ := get?_next p s step slot
    · obtain ⟨before, r, after, hsteps, hempty, hload⟩ := ih (heq.trans hnone) h
      exact ⟨step :: before, r, after, by rw [hsteps, List.cons_append], hempty, hload⟩
    · -- filled by this very step, and kept since
      have hkept := get?_run_of_some (p := p) slot hsome rest
      have hab : some b = some a := hkept.symm.trans h
      exact ⟨[], r, rest, rfl, hnone, Option.some.inj hab ▸ hload⟩

/-- From here on a query is answered with `a` from the caches, whatever happens and whatever the
disk holds by then. -/
def Settles (p : Project) (s : State) (q : Disk → Query α) (a : α) : Prop :=
  ∀ later d, q d (s.run p later).cache = ((s.run p later).cache, .ok a)

/-- **A slot that was answered from** settles its query. -/
theorem settles_query (slot : Slot) {a : slot.Value}
    (h : (slot.query p s.disk s.cache).2.result = .ok a) :
    Settles p ⟨s.disk, (slot.query p s.disk s.cache).1⟩ (fun d => slot.query p d) a :=
  fun later d => Slot.query_of_some (get?_run_of_some slot (Slot.get?_query slot h) later) d

end State

/-! ### Modules -/

variable {cache : Cache} {path : String} {paths : List String}

/-- The module at a source is answered from its slot, and from its loader if that is empty. -/
private theorem module_of_sources (hpaths : cache.sources = some paths)
    (hmem : Path.normalize (Path.join p.root path) ∈ paths) (d : Disk) :
    p.module d path cache = (cachedModule d (Path.normalize (Path.join p.root path)) >>= fun m =>
      pure (some m)) cache := by
  have hsources : p.sources d cache = (cache, .ok paths) := Query.cached_of_some hpaths
  rw [module_eq, Query.bind_of_eq_ok hsources, moduleAmong,
    if_pos (List.contains_iff_mem.mpr hmem)]

/-- A module that is answered is there, and so is the list of sources, which has its path. -/
theorem slots_of_module {m : Module} (h : (p.module d path cache).2.result = .ok (some m)) :
    ∃ paths, Path.normalize (Path.join p.root path) ∈ paths ∧
      (p.module d path cache).1.sources = some paths ∧
      (p.module d path cache).1.modules.lookup (Path.normalize (Path.join p.root path)) =
        some m := by
  rw [module_eq] at h ⊢
  generalize Path.normalize (Path.join p.root path) = full at h ⊢
  obtain ⟨paths, hpaths, h⟩ := Query.result_bind_eq_ok_iff.mp h
  have hsources : Slot.sources.get? (p.sources d cache).1 = some paths :=
    Slot.get?_query .sources hpaths
  rw [Query.bind_of_ok hpaths]
  generalize (p.sources d cache).1 = cache at h hsources ⊢
  dsimp only
  rw [moduleAmong] at h ⊢
  split at h
  · next hmem =>
    obtain ⟨m', hm', h⟩ := Query.result_bind_eq_ok_iff.mp h
    obtain rfl : m' = m := Option.some.inj (Except.ok.inj h)
    have hfilled := (likeness_fills p d).module full cache
    rw [if_pos hmem, Query.bind_of_ok hm']
    exact ⟨paths, List.contains_iff_mem.mp hmem, hfilled.get?_of_some hsources,
      Slot.get?_query (p := p) (.module full) hm'⟩
  · obtain ⟨_, -, h⟩ := Query.result_bind_eq_ok_iff.mp h
    cases h

/-- **A module that was answered** is answered again under every spelling of its path. -/
theorem settles_module {s : State} {m : Module}
    (h : (p.module s.disk path s.cache).2.result = .ok (some m)) {path' : String}
    (hpath : Path.normalize (Path.join p.root path') = Path.normalize (Path.join p.root path)) :
    State.Settles p ⟨s.disk, (p.module s.disk path s.cache).1⟩ (fun d => p.module d path')
      (some m) := by
  obtain ⟨paths, hmem, hsources, hm⟩ := slots_of_module h
  rw [← hpath] at hmem hm
  generalize (p.module s.disk path s.cache).1 = cache at hsources hm ⊢
  intro later d
  beta_reduce
  have hkept := State.get?_run_of_some (p := p) (s := ⟨s.disk, cache⟩) .sources hsources later
  have hfull := State.get?_run_of_some (p := p) (s := ⟨s.disk, cache⟩) (.module _) hm later
  have hcached := Slot.query_of_some (p := p) hfull d
  rw [Slot.query_module] at hcached
  rw [module_of_sources hkept hmem, Query.bind_of_eq_ok hcached, Query.pure_apply]

/-! ### Runs -/

/-- **What has been loaded stays**, and nothing else is ever kept. In every state that requests and
changes of the disk lead to, the configurations and the list of sources that are answered now are
answered so for ever, and so is a module, under every spelling of its path; a request, answered or
not, leaves each slot as it is or fills it with the whole answer of its loader; what a slot holds is
what its loader gave when it was filled; and an empty slot is answered by its loader on the disk as
it is by then. -/
theorem answers_last (p : Project) (d : Disk) (steps : List Step) :
    let s := State.run p ⟨d, {}⟩ steps
    (∀ fields, (p.package s.disk s.cache).2.result = .ok fields →
      (s.next p (.ask .package)).Settles p p.package fields) ∧
    (∀ fields, (p.compiler s.disk s.cache).2.result = .ok fields →
      (s.next p (.ask .compiler)).Settles p p.compiler fields) ∧
    (∀ paths, (p.sources s.disk s.cache).2.result = .ok paths →
      (s.next p (.ask .sources)).Settles p p.sources paths) ∧
    (∀ path m, (p.module s.disk path s.cache).2.result = .ok (some m) → ∀ path',
      Path.normalize (Path.join p.root path') = Path.normalize (Path.join p.root path) →
        (s.next p (.ask (.module path))).Settles p (fun d => p.module d path') (some m)) ∧
    (∀ r : Request, Filled p s.disk s.cache (r.ask p s.disk s.cache).1) ∧
    (∀ (slot : Slot) (a : slot.Value), slot.get? s.cache = some a →
      ∃ before r after, steps = before ++ .ask r :: after ∧
        let e := State.run p ⟨d, {}⟩ before
        slot.get? e.cache = none ∧ (slot.load p e.disk e.cache).result = .ok a) ∧
    ∀ (slot : Slot) (d' : Disk), slot.get? s.cache = none →
      (slot.query p d' s.cache).2 = slot.load p d' s.cache := by
  intro s
  refine ⟨fun fields h => ?_, fun fields h => ?_, fun paths h => ?_, fun path m h path' hpath => ?_,
    fun r => ?_, fun slot a h => ?_, fun slot d' h => ?_⟩
  · exact State.settles_query .package h
  · exact State.settles_query .compiler h
  · exact State.settles_query .sources h
  · exact settles_module h hpath
  · exact filled_ask p s.disk r s.cache
  · refine State.exists_load_of_run ?_ h
    cases slot <;> rfl
  · exact Slot.query_of_none h d'

/-- A package whose configuration cannot be read, with one source. -/
def damaged : Disk where
  entries := [("a.ts", .file ⟨[], none, none⟩),
    ("tsconfig.json", .file ⟨Utf8.encode "\x7b", none, none⟩)]
  cwd := "/"
  limits := .uniform 8

/-- The configuration is put in order after it stopped a request for the sources. -/
def repair : List Step :=
  [.ask .sources, .change fun d =>
    d.write "/tsconfig.json" ⟨Utf8.encode "\x7b\"files\":[\"a.ts\"]\x7d", none, none⟩]

/-- The strict project at the damaged package. -/
def damagedProject : Project :=
  openAt damaged "" (some true) none

/-- The state after the repair. -/
def repaired : State :=
  State.run damagedProject ⟨damaged, {}⟩ repair

/-- Nothing can be told of the damaged package. Once it is repaired its source has a module, and has
it for ever, also after the source is removed. -/
theorem answers_last_repair :
    (damagedProject.sources damaged {}).2.result.toBool = false ∧
      repaired.cache.compiler.isNone = true ∧
      ∃ m, m.path = "/a.ts" ∧
        (repaired.next damagedProject (.ask (.module "a.ts"))).Settles damagedProject
          (fun d => damagedProject.module d "b/../a.ts") (some m) := by
  have hfound : (damagedProject.module repaired.disk "a.ts"
      repaired.cache).2.result.toOption.join.map (·.path) = some "/a.ts" := by decide +kernel
  have hsame : Path.normalize (Path.join damagedProject.root "b/../a.ts") =
      Path.normalize (Path.join damagedProject.root "a.ts") := by decide +kernel
  refine ⟨by decide +kernel, by decide +kernel, ?_⟩
  have hall := answers_last damagedProject damaged repair
  rw [show State.run damagedProject ⟨damaged, {}⟩ repair = repaired from rfl] at hall
  obtain ⟨-, -, -, hsettles, -⟩ := hall
  generalize repaired = s at hfound hsettles ⊢
  obtain ⟨m, hm, hpath⟩ := Option.map_eq_some_iff.mp hfound
  refine ⟨m, hpath, hsettles "a.ts" m ?_ "b/../a.ts" hsame⟩
  cases hresult : (damagedProject.module s.disk "a.ts" s.cache).2.result with
  | error e =>
    rw [hresult] at hm
    cases hm
  | ok found =>
    rw [hresult] at hm
    exact congrArg Except.ok hm

end Project

end ApiOutline
