import ApiOutline.Proofs.Module.Plain
import ApiOutline.Proofs.Project.Request
import ApiOutline.Proofs.Sink
import ApiOutline.Run.Workspace

/-!
# Scopes are closed

A computation is *steady* if it leaves the context of the log as it found it, whether it ends with
a value or a failure. Plain computations are, and the loaders, since they open no scope. A scope
closes what it opens however its body ends, so a steady body makes a steady scope, and what catches
a failure is steady if what failed was. The run over a workspace is put together from these
(`steady_execute`), whichever of its packages fail.

Where a sink ends a computation its trace is cut off, and what is left of a steady one need not be
steady. It is where the computation is *flat*, that is, opens no scope at all, and only such
computations are handed to a sink.
-/

namespace ApiOutline

namespace Outcome

variable {ε ε' α β : Type}

/-- The context is left as it was found. -/
def Steady (x : Outcome ε α) : Prop :=
  ∀ c : Log.Context, c.after x.trace = c

namespace Steady

theorem ofExcept (x : Except ε α) : Steady (ofExcept x) :=
  fun _ => rfl

theorem ok (a : α) : Steady (ok a : Outcome ε α) :=
  fun _ => rfl

theorem fail (e : ε) : Steady (fail e : Outcome ε α) :=
  fun _ => rfl

theorem log (level : Log.Level) (channel : Log.Channel) (text : String) :
    Steady (log level channel text : Outcome ε Unit) :=
  fun _ => rfl

/-- Two steady computations in a row are steady, also if the second is never come to. -/
theorem bind {x : Outcome ε α} {f : α → Outcome ε β} (hx : x.Steady) (hf : ∀ a, (f a).Steady) :
    (x >>= f).Steady := by
  intro c
  rw [bind_eq]
  cases h : x.result with
  | ok a => rw [andThen_of_ok h, Log.Context.after_append, hx c, hf a c]
  | error e =>
    rw [andThen_of_error h]
    exact hx c

theorem recover {x : Outcome ε α} {f : ε → Outcome ε' α} (hx : x.Steady)
    (hf : ∀ e, (f e).Steady) : (x.recover f).Steady := by
  intro c
  cases h : x.result with
  | ok a =>
    simp only [Outcome.recover, h]
    exact hx c
  | error e =>
    simp only [Outcome.recover, h]
    rw [Log.Context.after_append, hx c, hf e c]

/-- **A scope is closed** however its body ends. -/
theorem within {x : Outcome ε α} (h : x.Steady) (scope : Log.Scope) (name : String) :
    (within scope name x).Steady :=
  fun c => after_within c scope name x (h _)

theorem settle (strict : Bool) (problem : Config.Problem) (fallback : α) :
    Steady (settle strict problem fallback) := by
  cases strict with
  | false => exact .bind (.log _ _ _) fun _ => .ok fallback
  | true => exact .fail _

end Steady

/-! ### Flat computations -/

/-- Nothing that is done changes the context of the log. -/
def Flat (x : Outcome ε α) : Prop :=
  ∀ event ∈ x.trace, ∀ c : Log.Context, c.step event = c

theorem Flat.steady {x : Outcome ε α} (h : x.Flat) : x.Steady := by
  obtain ⟨trace, result⟩ := x
  intro c
  induction trace with
  | nil => rfl
  | cons event rest ih =>
    obtain ⟨hevent, hrest⟩ := List.forall_mem_cons.mp h
    rw [Log.Context.after, List.foldl_cons, hevent c]
    exact ih hrest

namespace Flat

theorem ofExcept (x : Except ε α) : Flat (ofExcept x) :=
  List.forall_mem_nil _

theorem ok (a : α) : Flat (ok a : Outcome ε α) :=
  List.forall_mem_nil _

theorem log (level : Log.Level) (channel : Log.Channel) (text : String) :
    Flat (log level channel text : Outcome ε Unit) :=
  List.forall_mem_singleton.mpr fun _ => rfl

theorem print (text : String) : Flat (print text : Outcome ε Unit) :=
  List.forall_mem_singleton.mpr fun _ => rfl

theorem printEach (texts : List String) : Flat (printEach texts : Outcome ε Unit) :=
  List.forall_mem_map.mpr fun _ _ _ => rfl

theorem bind {x : Outcome ε α} {f : α → Outcome ε β} (hx : x.Flat) (hf : ∀ a, (f a).Flat) :
    (x >>= f).Flat := by
  rw [bind_eq]
  cases h : x.result with
  | ok a =>
    rw [andThen_of_ok h]
    exact List.forall_mem_append.mpr ⟨hx, hf a⟩
  | error e =>
    rw [andThen_of_error h]
    exact hx

/-- **Behind a sink** a flat computation is flat, wherever it is cut off. -/
theorem through {x : Outcome Failure α} (h : x.Flat) (out : Sink) : (x.through out).Flat :=
  fun event hevent => h event ((trace_through_isPrefix out x).subset hevent)

end Flat

/-- A plain computation opens no scope. -/
theorem Plain.flat {x : Outcome ε α} (h : x.Plain) : x.Flat := by
  induction h with
  | ofExcept x => exact .ofExcept x
  | log _ text => exact .log _ _ text
  | mapError _ f ih => exact ih
  | bind _ _ hx hf => exact .bind hx hf

end Outcome

open Outcome (Steady)

/-! ### Projects -/

/-- The loaders open no scope, in either mode. -/
theorem Outcome.steady (strict : Bool) : Congruence (fun x _ => x.Steady) strict strict :=
  { bare := fun h => h.plain.flat.steady
    bind := .bind
    settle := fun _ fallback => .settle strict _ fallback }

private theorem Config.steady_validate (d : Disk) (root : String) (required : List String)
    (strict : Bool) :
    (validate d root required strict).Steady := by
  simp only [validate]
  split
  · exact .ok _
  · exact .settle _ _ _

/-- A query is steady from any caches. -/
def Query.Steady {α : Type} (q : Query α) : Prop :=
  ∀ cache, (q cache).2.Steady

namespace Query.Steady

variable {α β : Type}

theorem lift {x : Outcome Failure α} (h : x.Steady) : Query.Steady (.lift x) :=
  fun _ => h

theorem bind {q : Query α} {f : α → Query β} (hq : q.Steady) (hf : ∀ a, (f a).Steady) :
    (q >>= f).Steady := by
  intro cache
  rw [Query.snd_bind]
  exact .bind (hq cache) fun a => hf a _

end Query.Steady

namespace Project

/-- Whatever a project is asked for, it is steady. -/
private theorem steady_ask (p : Project) (d : Disk) (r : Request) : (r.ask p d).Steady :=
  (Likeness.of_outcomes (Outcome.steady p.strict)).ask r

end Project

/-! ### Runs over a workspace -/

/-- Lines are printed as they are made, and no scope is opened for any. -/
private theorem ModuleEntry.flat_printText (e : ModuleEntry) (label : String) :
    (e.printText label).Flat := by
  refine .bind (.print _) fun _ => .bind (.bind e.plain_entries.flat ?_) fun lines => .ok _
  exact e.linesOf_induction Outcome.Plain.flat .bind fun line => .printEach line.texts

namespace WorkspaceRun

open Manifest (Package)

variable (d : Disk)

private theorem flat_printAll (found : List ModuleEntry) : (printAll d found).Flat := by
  induction found with
  | nil => exact .ok _
  | cons entry rest ih =>
    exact .bind (entry.flat_printText "Module") fun stats => .bind ih fun others => .ok _

private theorem flat_printBlock (package : Package) (found : List ModuleEntry) :
    (printBlock d package found).Flat := by
  refine .bind (.print _) fun _ => ?_
  split
  · exact .bind (.print _) fun _ => flat_printAll d found
  · exact flat_printAll d found

private theorem steady_findModules (p : Project) (modules : List String) :
    (findModules p d modules).Steady := by
  induction modules with
  | nil => exact .lift (.ok ([], []))
  | cons path rest ih =>
    rw [findModules]
    refine .bind (p.steady_ask d (.moduleEntry path)) fun entry => ?_
    exact .bind ih fun found => .lift (.ok _)

private theorem steady_resolve (p : Project) (modules : List String) :
    (resolve p d modules).Steady := by
  cases modules with
  | nil =>
    rw [resolve]
    refine .bind (p.steady_ask d .mainModuleEntry) fun entry => ?_
    cases entry with
    | some entry => exact .lift (.ok _)
    | none => exact .lift (.ok _)
  | cons path rest =>
    rw [resolve]
    · exact steady_findModules d p (path :: rest)
    · exact List.cons_ne_nil path rest

variable (out : Sink) (manifestPath : String) (strict : Bool)

private theorem steady_processPackage (package : Package) :
    (processPackage out d manifestPath strict package).Steady := by
  refine .bind (.within (Config.steady_validate d _ _ _) _ _) fun summary => ?_
  refine .bind (.within (steady_resolve d _ package.modules {}) _ _) fun found => ?_
  refine .bind (.within ((flat_printBlock d package found.1).through out).steady _ _)
    fun stats => ?_
  exact .bind (.ofExcept _) fun names => .ok _

/-- A package that fails is left like one that succeeds. -/
private theorem steady_packageSection (package : Package) :
    (packageSection out d manifestPath strict package).Steady := by
  refine .within (.recover ?_ fun failure => .bind (.log _ _ _) fun _ => .ok _) _ _
  exact .bind (steady_processPackage d out manifestPath strict package) fun fields => .ok _

private theorem steady_packageSections (continueOnError : Bool) (packages : List Package) :
    (packageSections out d manifestPath strict continueOnError packages).Steady := by
  induction packages with
  | nil => exact .ok []
  | cons package rest ih =>
    rw [packageSections]
    refine .bind (steady_packageSection d out manifestPath strict package) fun part => ?_
    split
    · exact .bind ih fun others => .ok _
    · exact .ok _

/-- **A run over a workspace is steady**, whichever of its packages fail and whatever the sink
refuses. -/
theorem steady_execute (manifest : Manifest) (continueOnError : Bool) :
    (execute out d manifest manifestPath strict continueOnError).Steady :=
  .bind (steady_packageSections d out manifestPath strict continueOnError _) fun _ => .ok _

end WorkspaceRun

end ApiOutline
