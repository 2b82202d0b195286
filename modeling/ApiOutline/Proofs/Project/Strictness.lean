import ApiOutline.Proofs.Config.Strictness
import ApiOutline.Proofs.Project.Request

/-!
# Strict and lenient projects

Every request is made to two fresh projects with the same root, one strict and one lenient. When
the lenient project answers without a warning about the configuration, the strict one answers the
same and leaves the same trace; otherwise the strict one fails with what the first such warning
tells (`ask_strict`).

The relation between the two runs is that of the loaders, `Outcome.Sharpens`, with caches: as long
as no warning is made, both projects have the same caches. What the lenient project does after its
first warning is of no matter, so nothing is said about caches there.
-/

namespace ApiOutline

open Outcome (Sharpens Stopped)

variable {α β : Type}

/-- From the same caches, the strict query does what the lenient one does if that is quiet, and is
stopped otherwise. -/
def Query.Sharpens (lenient strict : Query α) : Prop :=
  ∀ cache, (lenient cache).2.Quiet ∧ strict cache = lenient cache ∨
    Stopped (lenient cache).2 (strict cache).2

namespace Query.Sharpens

theorem lift {x y : Outcome Failure α} (h : Outcome.Sharpens x y) :
    Query.Sharpens (.lift x) (.lift y) := by
  intro cache
  rcases h with ⟨hquiet, rfl⟩ | hstopped
  · exact .inl ⟨hquiet, rfl⟩
  · exact .inr hstopped

/-- **Steps in a row**: without a warning the second queries start from the same caches. -/
theorem bind {q q' : Query α} {f f' : α → Query β} (h : Query.Sharpens q q')
    (hf : ∀ a, Query.Sharpens (f a) (f' a)) : Query.Sharpens (q >>= f) (q' >>= f') := by
  intro cache
  rcases h cache with ⟨hquiet, heq⟩ | hstopped
  · -- both runs are at the same place with the same caches
    cases hresult : (q cache).2.result with
    | error e =>
      rw [Query.bind_of_error hresult, Query.bind_of_error (heq ▸ hresult), heq]
      exact .inl ⟨hquiet, rfl⟩
    | ok a =>
      rcases hf a (q cache).1 with ⟨hquiet', heq'⟩ | hstopped
      · refine .inl ⟨?_, ?_⟩
        · rw [Query.snd_bind, Outcome.Quiet, Outcome.firstWarning?_of_ok hresult, hquiet, hquiet']
          rfl
        · rw [Query.bind_of_ok hresult, Query.bind_of_ok (heq ▸ hresult), heq, heq']
      · rw [Query.snd_bind, Query.snd_bind, heq]
        exact .inr (.of_quiet hquiet hresult hstopped)
  · rw [Query.snd_bind, Query.snd_bind]
    exact .inr (hstopped.andThen _ _)

/-- **A cache** is filled in both modes or in none, as long as no warning is made. -/
theorem cached {get? : Project.Cache → Option α} {store : Project.Cache → α → Project.Cache}
    {load load' : Query α} (h : Query.Sharpens load load') :
    Query.Sharpens (.cached get? store load) (.cached get? store load') := by
  intro cache
  cases hget : get? cache with
  | some a =>
    rw [Query.cached_of_some hget, Query.cached_of_some hget]
    exact .inl ⟨.ok a, rfl⟩
  | none =>
    rcases h cache with ⟨hquiet, heq⟩ | hstopped
    · have hsame : Query.cached get? store load' cache = Query.cached get? store load cache := by
        rw [Query.cached, Query.cached, heq]
      rw [hsame, Query.snd_cached hget]
      exact .inl ⟨hquiet, rfl⟩
    · rw [Query.snd_cached hget, Query.snd_cached hget]
      exact .inr hstopped

end Query.Sharpens

namespace Project

/-- The modes differ as they should wherever they come in. -/
private theorem likeness_sharpens (d : Disk) (root : String) :
    Likeness Query.Sharpens d root false true :=
  .of_loaders Outcome.sharpens .lift .bind .cached

/-- **The first warning decides**: a strict project answers every request as a lenient one does
that makes no warning about its configuration, and otherwise fails with the problem that the first
such warning tells. -/
theorem ask_strict (d : Disk) (root : String) (r : Request) :
    match (r.ask ⟨root, false⟩ d {}).2.firstWarning? with
    | none => r.ask ⟨root, true⟩ d {} = r.ask ⟨root, false⟩ d {}
    | some warning => ∃ problem : Config.Problem, problem.ToldBy warning ∧
        (r.ask ⟨root, true⟩ d {}).2.result = .error (.config problem) := by
  rcases (likeness_sharpens d root).ask r {} with ⟨hquiet, heq⟩ | hstopped
  · rw [hquiet]
    exact heq
  · obtain ⟨warning, problem, hwarning, hproblem, htold⟩ := hstopped
    rw [hwarning]
    exact ⟨problem, htold, hproblem⟩

end Project

end ApiOutline
