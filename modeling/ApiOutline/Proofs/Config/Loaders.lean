import ApiOutline.Config.Extends
import ApiOutline.Proofs.Outcome

/-!
# Statements about the loaders

The loaders of the configuration are put together from bare computations and from problems that are
settled by the mode. A statement about them, or about what they do in two modes, is an
`Outcome.Congruence` if it holds of these and is kept by running one computation after another. Then
it holds of every loader, which is proved here once: each place that settles a problem is looked at,
and the loader of a chain by induction over its depth.

Files that a package root lacks are a problem that no loader settles.
-/

namespace ApiOutline

variable {α β γ : Type}

/-- A relation between computations in the modes `strict` and `strict'` that is kept by the
operations from which the loaders are built. A statement about one computation is a relation that
does not look at the other one. -/
structure Outcome.Congruence (R : ∀ {α : Type}, Outcome Failure α → Outcome Failure α → Prop)
    (strict strict' : Bool) : Prop where
  bare : ∀ {α : Type} {x : Outcome Failure α}, x.Bare → R x x
  bind : ∀ {α β : Type} {x y : Outcome Failure α} {f g : α → Outcome Failure β}, R x y →
    (∀ a, R (f a) (g a)) → R (x >>= f) (y >>= g)
  settle : ∀ {α : Type} {problem : Config.Problem},
    (∀ root names, problem ≠ .missingFiles root names) → ∀ fallback : α,
      R (settle strict problem fallback) (settle strict' problem fallback)

namespace Outcome.Congruence

variable {R : ∀ {α : Type}, Outcome Failure α → Outcome Failure α → Prop} {strict strict' : Bool}

theorem pure (h : Congruence R strict strict') (a : α) : R (ok a) (ok a) :=
  h.bare (.ok a)

theorem foldlM (h : Congruence R strict strict') {f g : α → γ → Outcome Failure α}
    (hfg : ∀ a item, R (f a item) (g a item)) (items : List γ) (init : α) :
    R (items.foldlM f init) (items.foldlM g init) := by
  induction items generalizing init with
  | nil => exact h.pure init
  | cons item rest ih =>
    rw [List.foldlM_cons, List.foldlM_cons]
    exact h.bind (hfg init item) ih

open Config

theorem parse (h : Congruence R strict strict') (room : Nat) (path text : String)
    (comments : Bool) :
    R (parse room path text strict comments) (parse room path text strict' comments) := by
  simp only [Config.parse]
  generalize (if comments = true then Json.stripComments text else text) = plain
  split
  · exact h.settle (by simp) []
  · split
    · exact h.pure _
    · exact h.settle (by simp) []
    · exact h.settle (by simp) []
    · exact h.bare (.fail nofun)

theorem loadWithin (h : Congruence R strict strict') (room : Nat) (d : Disk) (path : String)
    (comments : Bool) :
    R (loadWithin room d path strict comments) (loadWithin room d path strict' comments) := by
  rw [Config.loadWithin, Config.loadWithin]
  split
  · exact h.settle (by simp) []
  · exact h.bare (.fail nofun)
  · split
    · exact h.bare (.fail nofun)
    · exact h.parse room path _ comments

/-- A chain is loaded as its files are, at every depth. -/
theorem loadLevel (h : Congruence R strict strict') (d : Disk) (root : String) (fuel : Nat)
    (chain : List String) (path : String) :
    R (loadLevel d root strict fuel chain path) (loadLevel d root strict' fuel chain path) := by
  induction fuel generalizing chain path with
  | zero => exact h.bare (.fail nofun)
  | succ fuel ih =>
    rw [Config.loadLevel, Config.loadLevel]
    split
    · -- the file comes back in its own chain
      exact h.settle (by simp) []
    · refine h.bind (h.loadWithin _ d path true) fun config => ?_
      split
      · exact h.pure []
      · refine h.bind (h.bare (.ofPath _)) fun anchored => ?_
        dsimp only
        split
        · exact h.pure _
        · exact h.pure _
        · split
          · -- what it extends is not said in the meant form
            exact h.settle (by simp) _
          · refine h.bind (h.foldlM (fun merged name => ?_) _ []) fun merged => h.pure _
            split
            · -- an entry leads to no file
              exact h.settle (by simp) merged
            · exact h.bind (ih _ _) fun base => h.pure _

theorem mainFile (h : Congruence R strict strict') (package : Json.Fields) (root : String) :
    R (mainFile package root strict) (mainFile package root strict') := by
  rw [Config.mainFile, Config.mainFile]
  split
  · exact h.bind (h.bare (.log (by decide) _)) fun _ => h.pure none
  · exact h.bind (h.bare (.log (by decide) _)) fun _ => h.pure none
  · split
    · exact h.settle (by simp) none
    · exact h.pure _
  · exact h.settle (by simp) none

theorem compilerOptions (h : Congruence R strict strict') (compiler : Json.Fields) :
    R (compilerOptions compiler strict) (compilerOptions compiler strict') := by
  rw [Config.compilerOptions, Config.compilerOptions]
  split
  · exact h.pure []
  · exact h.pure _
  · exact h.settle (by simp) []

end Outcome.Congruence

end ApiOutline
