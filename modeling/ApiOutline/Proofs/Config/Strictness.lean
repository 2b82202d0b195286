import ApiOutline.Proofs.Config.Loaders

/-!
# What strict mode does to loading

A computation that settles problems is run in both modes. Where the lenient run makes no warning
about the configuration, the strict run is the same, trace included. Where it makes one, the strict
run ends with the problem that the first of these warnings tells, and the warning is the wording of
that failure with one of three remedies after it. `Outcome.Sharpens` is this relation between the
two runs.

It is kept by running one computation after another, since the strict run stops at the place where
the lenient run makes its first warning, so it holds of all loaders (`Outcome.sharpens`). The one
problem that is worded otherwise in its warning, files that a package root lacks, is settled by no
loader.
-/

namespace ApiOutline

namespace Config

/-- What warnings about a configuration add to the wording of a problem. -/
def remedies : List String :=
  ["continuing with defaults", "ignoring it", "using defaults"]

/-- A warning tells a problem: its wording, and after it a remedy. -/
def Problem.ToldBy (problem : Problem) (warning : String) : Prop :=
  ∃ remedy ∈ remedies, warning = (Failure.config problem).message ++ "; " ++ remedy

/-- The problems that concern what stands in the configuration, and not whether it is there. -/
private theorem Problem.toldBy_warning {problem : Problem}
    (h : ∀ root names, problem ≠ .missingFiles root names) : problem.ToldBy problem.warning := by
  cases problem with
  | missingFiles root names => exact absurd rfl (h root names)
  | _ => exact ⟨_, by simp [remedy, remedies], rfl⟩

end Config

namespace Outcome

variable {α β : Type}

/-- The strict run ends with the problem that the first warning of the lenient run tells. -/
def Stopped (lenient strict : Outcome Failure α) : Prop :=
  ∃ warning problem, lenient.firstWarning? = some warning ∧
    strict.result = .error (.config problem) ∧ problem.ToldBy warning

/-- The strict run is the lenient run if that is quiet, and is stopped otherwise. -/
def Sharpens (lenient strict : Outcome Failure α) : Prop :=
  lenient.Quiet ∧ strict = lenient ∨ Stopped lenient strict

namespace Stopped

variable {x y : Outcome Failure α} {f g : α → Outcome Failure β}

/-- What the lenient run does after its first warning does not matter. -/
theorem andThen (h : Stopped x y) (f g : α → Outcome Failure β) :
    Stopped (x.andThen f) (y.andThen g) := by
  obtain ⟨warning, problem, hwarning, hproblem, htold⟩ := h
  refine ⟨warning, problem, ?_, ?_, htold⟩
  · cases hresult : x.result with
    | error e =>
      rw [andThen_of_error hresult]
      exact hwarning
    | ok a =>
      rw [firstWarning?_of_ok hresult, hwarning]
      rfl
  · rw [result_andThen, hproblem]
    rfl

/-- After a quiet step the first warning is that of the next one. -/
theorem of_quiet {a : α} (hquiet : x.Quiet) (hresult : x.result = .ok a)
    (h : Stopped (f a) (g a)) : Stopped (x.andThen f) (x.andThen g) := by
  obtain ⟨warning, problem, hwarning, hproblem, htold⟩ := h
  refine ⟨warning, problem, ?_, ?_, htold⟩
  · rw [firstWarning?_of_ok hresult, hquiet, hwarning]
    rfl
  · rw [result_andThen, hresult]
    exact hproblem

end Stopped

namespace Sharpens

theorem of_quiet {x : Outcome Failure α} (h : x.Quiet) : Sharpens x x :=
  .inl ⟨h, rfl⟩

/-- **Steps in a row**: the strict run stops at the first warning of the lenient run. -/
theorem bind {x y : Outcome Failure α} {f g : α → Outcome Failure β} (h : Sharpens x y)
    (hfg : ∀ a, Sharpens (f a) (g a)) : Sharpens (x >>= f) (y >>= g) := by
  rw [bind_eq, bind_eq]
  rcases h with ⟨hquiet, rfl⟩ | hstopped
  · cases hresult : y.result with
    | error e =>
      rw [andThen_of_error hresult, andThen_of_error hresult]
      exact .of_quiet hquiet
    | ok a =>
      rcases hfg a with ⟨hquiet', heq⟩ | hstopped
      · refine .inl ⟨?_, ?_⟩
        · rw [Quiet, firstWarning?_of_ok hresult, hquiet, hquiet']
          rfl
        · simp only [andThen, hresult, heq]
      · exact .inr (.of_quiet hquiet hresult hstopped)
  · exact .inr (hstopped.andThen f g)

/-- **A settled problem**: the lenient run warns of it, and the strict run ends with it. -/
theorem settle {problem : Config.Problem} (h : ∀ root names, problem ≠ .missingFiles root names)
    (fallback : α) : Sharpens (settle false problem fallback) (settle true problem fallback) :=
  .inr ⟨problem.warning, problem, rfl, rfl, Config.Problem.toldBy_warning h⟩

end Sharpens

/-- **The loaders** differ in the two modes as their problems do. -/
theorem sharpens : Congruence Sharpens false true :=
  { bare := fun h => .of_quiet h.plain.quiet
    bind := .bind
    settle := .settle }

end Outcome

end ApiOutline
