import ApiOutline.Failure
import ApiOutline.Module

/-!
# Queries on a project

A query may look at and fill the caches of a project. A cache is filled with what its loader
returned; a loader that fails leaves its cache as it was, and the caches that were filled on the
way stay filled.
-/

namespace ApiOutline

/-- What a project has loaded so far. -/
structure Project.Cache where
  package : Option Json.Fields := none
  compiler : Option Json.Fields := none
  sources : Option (List String) := none
  modules : List (String × Module) := []

/-- A computation that reads and fills the caches. -/
def Query (α : Type) : Type :=
  Project.Cache → Project.Cache × Outcome Failure α

namespace Query

variable {α β : Type}

/-- The query that answers `a` and touches nothing. -/
def ok (a : α) : Query α :=
  fun cache => (cache, .ok a)

/-- Continues with the answer, if there is one. -/
def andThen (q : Query α) (f : α → Query β) : Query β := fun cache =>
  let (cache, first) := q cache
  match first.result with
  | .ok a =>
    let (cache, second) := f a cache
    (cache, ⟨first.trace ++ second.trace, second.result⟩)
  | .error e => (cache, ⟨first.trace, .error e⟩)

instance : Monad Query where
  pure := ok
  bind := andThen

/-- A computation that touches no cache. -/
def lift (x : Outcome Failure α) : Query α :=
  fun cache => (cache, x)

/-- Answers from a cache, or loads, stores and answers. -/
def cached (get? : Project.Cache → Option α) (store : Project.Cache → α → Project.Cache)
    (load : Query α) : Query α := fun cache =>
  match get? cache with
  | some a => (cache, .ok a)
  | none =>
    let (cache, loaded) := load cache
    match loaded.result with
    | .ok a => (store cache a, loaded)
    | .error _ => (cache, loaded)

@[simp]
theorem pure_apply (a : α) (cache : Project.Cache) :
    (pure a : Query α) cache = (cache, .ok a) := rfl

@[simp]
theorem lift_apply (x : Outcome Failure α) (cache : Project.Cache) :
    lift x cache = (cache, x) := rfl

/-- A filled cache answers without a trace and stays as it is. -/
theorem cached_of_some {get? : Project.Cache → Option α}
    {store : Project.Cache → α → Project.Cache} {load : Query α} {cache : Project.Cache} {a : α}
    (h : get? cache = some a) : cached get? store load cache = (cache, .ok a) := by
  simp [cached, h]

end Query

end ApiOutline
