import ApiOutline.Proofs.Outcome
import ApiOutline.Proofs.Project.Request

/-!
# The caches of a project are invisible

On a disk that does not change, an answer from a cache is the answer that loading would give, so
what was asked before makes no difference: in a run of requests every request, also after one that
failed, is answered as if it were the first (`answers_run`).

The invariant is `Consistent`: every cache that is filled holds what its loader gives on this disk,
whichever caches are filled and in whichever order they were. Only answers are compared. The notes
that loading makes are made once and not again, so the traces of two equal requests differ.
-/

namespace ApiOutline

namespace Project

variable (p : Project) (d : Disk)

/-! ### The invariant -/

/-- Every cache that is filled holds what its loader gives. -/
structure Consistent (cache : Cache) : Prop where
  package : ∀ {fields}, cache.package = some fields →
    (Config.load d p.packagePath p.strict false).result = .ok fields
  compiler : ∀ {fields}, cache.compiler = some fields →
    (Config.loadChain d p.compilerPath p.strict).result = .ok fields
  sources : ∀ {paths}, cache.sources = some paths → (p.loadSources d {}).2.result = .ok paths
  module : ∀ {full m}, cache.modules.lookup full = some m →
    (loadModule d (d.absolute full)).result = .ok m

/-- Empty caches are consistent. -/
theorem Consistent.empty : Consistent p d {} := by
  constructor <;> intros <;> contradiction

/-- A query keeps the caches consistent, and consistent caches do not show in its answer. -/
def Transparent {α : Type} (q : Query α) : Prop :=
  ∀ cache, Consistent p d cache →
    Consistent p d (q cache).1 ∧ (q cache).2.result = (q {}).2.result

variable {p d}

namespace Transparent

variable {α β : Type}

theorem lift (x : Outcome Failure α) : Transparent p d (.lift x) :=
  fun _ h => ⟨h, rfl⟩

/-- **Steps in a row**: the second query starts from caches that the first one left consistent. -/
theorem bind {q : Query α} {f : α → Query β} (hq : Transparent p d q)
    (hf : ∀ a, Transparent p d (f a)) : Transparent p d (q >>= f) := by
  intro cache h
  obtain ⟨hcache, hresult⟩ := hq cache h
  -- also from empty caches the second query starts from consistent ones
  obtain ⟨hempty, -⟩ := hq {} (.empty p d)
  cases hfresh : (q {}).2.result with
  | error e =>
    rw [Query.bind_of_error (hresult.trans hfresh), Query.bind_of_error hfresh]
    exact ⟨hcache, rfl⟩
  | ok a =>
    obtain ⟨hafter, hsecond⟩ := hf a _ hcache
    obtain ⟨-, hsecond'⟩ := hf a _ hempty
    rw [Query.bind_of_ok (hresult.trans hfresh), Query.bind_of_ok hfresh]
    exact ⟨hafter, hsecond.trans hsecond'.symm⟩

/-- **A cache is transparent** when it is filled only with what its loader gives, and filling it
keeps the others consistent. -/
theorem cached {get? : Cache → Option α} {store : Cache → α → Cache} {load : Query α}
    (hload : Transparent p d load) (hempty : get? {} = none)
    (hget : ∀ {cache a}, Consistent p d cache → get? cache = some a →
      (load {}).2.result = .ok a)
    (hstore : ∀ {cache a}, Consistent p d cache → (load {}).2.result = .ok a →
      Consistent p d (store cache a)) : Transparent p d (.cached get? store load) := by
  intro cache h
  rw [Query.snd_cached hempty]
  cases hc : get? cache with
  | some a =>
    rw [Query.cached_of_some hc]
    exact ⟨h, (hget h hc).symm⟩
  | none =>
    obtain ⟨hcache, hresult⟩ := hload cache h
    refine ⟨?_, by rw [Query.snd_cached hc, hresult]⟩
    -- only an answer is stored, never a failure
    cases hloaded : (load cache).2.result with
    | ok a =>
      rw [Query.cached_of_ok hc hloaded]
      exact hstore hcache (hresult ▸ hloaded)
    | error e =>
      rw [Query.cached_of_error hc hloaded]
      exact hcache

/-- An answer may be taken for granted in what follows. -/
theorem result_bind {q : Query α} {f : α → Query β} {a : α} (hq : Transparent p d q)
    (hf : Transparent p d (f a)) (ha : (q {}).2.result = .ok a) :
    ((q >>= f) {}).2.result = (f a {}).2.result := by
  rw [Query.bind_of_ok ha]
  exact (hf _ (hq {} (.empty p d)).1).2

/-- **One query after another** answers as if the second were the first. -/
theorem result_bind_eq {q : Query α} {f : α → Query β} (hq : Transparent p d q)
    (hf : ∀ a, Transparent p d (f a)) :
    ((q >>= f) {}).2.result = (q {}).2.result >>= fun a => (f a {}).2.result := by
  cases h : (q {}).2.result with
  | ok a => exact hq.result_bind (hf a) h
  | error e =>
    rw [Query.bind_of_error h]
    rfl

end Transparent

/-! ### Requests in a row -/

variable (p d)

theorem transparent_package : Transparent p d (p.package d) := by
  refine .cached (.lift _) rfl (fun h hget => ?_) fun h hload => ?_
  · exact h.package hget
  · exact { h with package := fun hget => Option.some.inj hget ▸ hload }

theorem transparent_compiler : Transparent p d (p.compiler d) := by
  refine .cached (.lift _) rfl (fun h hget => ?_) fun h hload => ?_
  · exact h.compiler hget
  · exact { h with compiler := fun hget => Option.some.inj hget ▸ hload }

private theorem transparent_sources (h : Transparent p d (p.loadSources d)) :
    Transparent p d (p.sources d) := by
  refine .cached h rfl (fun h hget => ?_) fun h hload => ?_
  · exact h.sources hget
  · exact { h with sources := fun hget => Option.some.inj hget ▸ hload }

theorem transparent_cachedModule (full : String) : Transparent p d (cachedModule d full) := by
  refine .cached (.lift _) rfl (fun {cache m} h hget => ?_) fun {cache m} h hload => ?_
  · change (loadModule d (d.absolute full)).result = .ok m
    change cache.modules.lookup full = some m at hget
    exact h.module hget
  · -- the new module is found under its own path, and the others as before
    refine { h with module := fun hget => ?_ }
    rw [List.lookup_cons] at hget
    split at hget
    · next heq =>
      rw [beq_iff_eq.mp heq]
      exact Option.some.inj hget ▸ hload
    · exact h.module hget

/-- Transparency holds wherever a cache comes in. -/
theorem likeness_transparent : Likeness (fun q _ => Transparent p d q) d p.root p.strict p.strict :=
  { lift := fun _ => .lift _
    bind := .bind
    package := transparent_package p d
    compiler := transparent_compiler p d
    options := fun _ => .lift _
    mainFile := fun _ => .lift _
    sources := transparent_sources p d
    module := transparent_cachedModule p d }

variable {p d}

/-- The answers to requests that are made one after the other, from the given caches on. -/
def Request.run (p : Project) (d : Disk) :
    Cache → List Request → List ((r : Request) × Except Failure r.Answer)
  | _, [] => []
  | cache, r :: rest =>
    let (cache, outcome) := r.ask p d cache
    ⟨r, outcome.result⟩ :: Request.run p d cache rest

/-- One request leaves consistent caches, and is answered as if it were the first. -/
theorem transparent_ask (p : Project) (d : Disk) (r : Request) : Transparent p d (r.ask p d) :=
  (likeness_transparent p d).ask r

/-- **The caches are invisible**: in a run of requests each one is answered as if it were the
first. -/
theorem answers_run (p : Project) (d : Disk) (requests : List Request) :
    Request.run p d {} requests =
      requests.map fun r => ⟨r, (r.ask p d {}).2.result⟩ := by
  -- the caches that a run goes through are consistent
  have hrun : ∀ cache, Consistent p d cache → Request.run p d cache requests =
      requests.map fun r => ⟨r, (r.ask p d {}).2.result⟩ := by
    induction requests with
    | nil => exact fun _ _ => rfl
    | cons r rest ih =>
      intro cache h
      obtain ⟨hcache, hresult⟩ := transparent_ask p d r cache h
      rw [Request.run, List.map_cons, ← ih _ hcache, ← hresult]
  exact hrun {} (.empty p d)

end Project

end ApiOutline
