import ApiOutline.Log.Session
import ApiOutline.Proofs.Log.Scopes
import Mathlib.Data.List.Induction

/-!
# What a log record carries

The state of logging is changed in steps: a session is configured, the run is named, scopes of two
kinds are opened, the innermost open one is closed, and notes are made. A scope is closed by the
same step whether its body ended or failed.

What a record carries after some steps is read off these steps alone: the name of the innermost
open scope of either kind, and the name that the run was given last (`reached_carries`). The
session keeps the names that open scopes put aside, and the invariant is that its context is the
one of the scopes that are open, `contextOf`. The handlers need no invariant of this kind, since
they are all changed at once: before the session is first configured they are as they came, so that
a record can go without its fields (`reached_without_fields`), and from then on each has the layout
with fields and exactly one filter.

Nothing is said about which notes are let through.
-/

namespace ApiOutline

namespace Log

/-! ### Steps -/

/-- One thing done to the state of logging. -/
inductive Step where
  | configure (level : Level)
  /-- Names the run; `fresh` is the name for a run that is given none. -/
  | setRunId (fresh : String) (runId : Option String)
  | enter (scope : Scope) (name : String)
  | leave
  | log (m : Message)

/-- The state after a step. -/
def Session.step (s : Session) : Step → Session
  | .configure level => s.configure level
  | .setRunId fresh runId => s.setRunId fresh runId
  | .enter scope name => s.enter scope name
  | .leave => s.leave
  | .log _ => s

/-- The state that steps lead to from handlers without a context filter. -/
def Session.reached (level : Level) (layouts : List Layout) (steps : List Step) : Session :=
  steps.foldl Session.step { level, handlers := layouts.map fun layout => { layout } }

/-! ### What the steps say -/

/-- The scopes that are open after a step, innermost first. -/
def Step.scopes (scopes : List (Scope × String)) : Step → List (Scope × String)
  | .enter scope name => (scope, name) :: scopes
  | .leave => scopes.tail
  | _ => scopes

/-- The scopes that are open after some steps, innermost first. -/
def openScopes (steps : List Step) : List (Scope × String) :=
  steps.foldl Step.scopes []

/-- The name of the innermost of some scopes that is of the given kind. -/
def innermost (scope : Scope) (scopes : List (Scope × String)) : String :=
  (scopes.lookup scope).getD "-"

/-- The name that a step gives to the run. -/
def Step.runId? : Step → Option String
  | .setRunId fresh runId => some ((runId.filter (· ≠ "")).getD fresh)
  | _ => none

/-- The name that some steps gave to the run last. -/
def lastRunId (steps : List Step) : String :=
  ((steps.filterMap Step.runId?).getLast?).getD "-"

/-- Whether a step configures the session. -/
def Step.configures : Step → Bool
  | .configure _ => true
  | _ => false

/-- What a filter adds to a record. -/
structure Stamp where
  runId : String
  phase : String
  package : String
  deriving DecidableEq

/-- What a filter adds to a record that is made now. -/
def Session.stamp (s : Session) : Stamp :=
  ⟨s.runId, s.context.phase, s.context.package⟩

/-- What a record is to carry after some steps. -/
def stampAfter (steps : List Step) : Stamp :=
  ⟨lastRunId steps, innermost .phase (openScopes steps), innermost .package (openScopes steps)⟩

/-- The line of a record in the given layout. -/
def Stamp.line (stamp : Stamp) (time : String) (m : Message) : Layout → String
  | .bare => m.text
  | .fields => time ++ " | " ++ m.level.name ++ " | run_id=" ++ stamp.runId ++ " | phase="
      ++ stamp.phase ++ " | package=" ++ stamp.package ++ " | " ++ loggerName m.logger ++ " | "
      ++ m.text

/-! ### The context -/

/-- The context inside some scopes, the innermost first. -/
def contextOf (scopes : List (Scope × String)) : Context :=
  scopes.foldr (fun scope c => c.enter scope.1 scope.2) {}

/-- Closing the innermost scope leads back to the scopes around it. -/
private theorem leave_contextOf (scopes : List (Scope × String)) :
    (contextOf scopes).leave = contextOf scopes.tail := by
  cases scopes with
  | nil => rfl
  | cons scope rest => exact Context.leave_enter _ _ _

/-- A scope shows in the names of its own kind only. -/
private theorem innermost_cons (scope kind : Scope) (name : String) (rest : List (Scope × String)) :
    innermost scope ((kind, name) :: rest) =
      if scope = kind then name else innermost scope rest := by
  rw [innermost, List.lookup_cons]
  by_cases h : scope = kind
  · rw [if_pos h, beq_iff_eq.mpr h]
    rfl
  · rw [if_neg h, beq_eq_false_iff_ne.mpr h]
    rfl

private theorem phase_contextOf (scopes : List (Scope × String)) :
    (contextOf scopes).phase = innermost .phase scopes := by
  induction scopes with
  | nil => rfl
  | cons scope rest ih =>
    obtain ⟨kind, name⟩ := scope
    rw [innermost_cons, ← ih]
    cases kind <;> rfl

private theorem package_contextOf (scopes : List (Scope × String)) :
    (contextOf scopes).package = innermost .package scopes := by
  induction scopes with
  | nil => rfl
  | cons scope rest ih =>
    obtain ⟨kind, name⟩ := scope
    rw [innermost_cons, ← ih]
    cases kind <;> rfl

/-! ### The handlers -/

/-- The handlers after configuring: one for each, or one if there was none. -/
def configured (layouts : List Layout) : List Handler :=
  List.replicate (max 1 layouts.length) ⟨.fields, 1⟩

/-- The handlers after steps that have configured the session or not. -/
def handlersAfter (layouts : List Layout) (done : Bool) : List Handler :=
  if done then configured layouts else layouts.map fun layout => { layout }

/-- Configuring gives every handler the layout with fields and sees that it has one filter. -/
private theorem handlers_configure {s : Session} {layouts : List Layout} {done : Bool}
    (h : s.handlers = handlersAfter layouts done) (level : Level) :
    (s.configure level).handlers = configured layouts := by
  simp only [Session.configure, h]
  cases done with
  | true =>
    obtain ⟨n, hn⟩ : ∃ n, max 1 layouts.length = n + 1 := ⟨max 1 layouts.length - 1, by omega⟩
    simp [handlersAfter, configured, hn, List.replicate_succ, Handler.withFilter]
  | false =>
    cases layouts with
    | nil => rfl
    | cons layout rest =>
      simp [handlersAfter, configured, List.replicate_succ, Handler.withFilter, Function.comp_def,
        List.map_const']

/-! ### Runs -/

/-- What is kept along the steps. -/
structure Session.Follows (s : Session) (layouts : List Layout) (steps : List Step) : Prop where
  context : s.context = contextOf (openScopes steps)
  runId : s.runId = lastRunId steps
  handlers : s.handlers = handlersAfter layouts (steps.any Step.configures)

private theorem openScopes_append (steps : List Step) (step : Step) :
    openScopes (steps ++ [step]) = step.scopes (openScopes steps) := by
  rw [openScopes, List.foldl_append]
  rfl

private theorem lastRunId_append (steps : List Step) (step : Step) :
    lastRunId (steps ++ [step]) = step.runId?.getD (lastRunId steps) := by
  rw [lastRunId, List.filterMap_append]
  cases h : step.runId? with
  | none => simp [h, lastRunId]
  | some runId => simp [h]

/-- **One more step** is followed. -/
theorem Session.Follows.step {s : Session} {layouts : List Layout} {steps : List Step}
    (h : s.Follows layouts steps) (step : Step) :
    (s.step step).Follows layouts (steps ++ [step]) := by
  obtain ⟨hcontext, hrunId, hhandlers⟩ := h
  have hany : (steps ++ [step]).any Step.configures =
      (steps.any Step.configures || step.configures) := by
    rw [List.any_append, List.any_cons, List.any_nil, Bool.or_false]
  constructor
  · rw [openScopes_append]
    cases step with
    | enter scope name => exact congrArg (·.enter scope name) hcontext
    | leave =>
      rw [Step.scopes, ← leave_contextOf, ← hcontext]
      rfl
    | _ => exact hcontext
  · rw [lastRunId_append]
    cases step with
    | setRunId fresh runId =>
      cases runId with
      | none => rfl
      | some id =>
        by_cases hid : id = "" <;>
          simp [Session.step, Session.setRunId, Step.runId?, Option.filter, hid]
    | _ => exact hrunId
  · rw [hany]
    cases step with
    | configure level =>
      rw [Step.configures, Bool.or_true]
      exact handlers_configure hhandlers level
    | _ =>
      change s.handlers = handlersAfter layouts (steps.any Step.configures || false)
      rw [Bool.or_false, hhandlers]

/-- All steps are followed. -/
private theorem follows_reached (level : Level) (layouts : List Layout) (steps : List Step) :
    (Session.reached level layouts steps).Follows layouts steps := by
  induction steps using List.reverseRecOn with
  | nil => exact ⟨rfl, rfl, rfl⟩
  | append_singleton steps step ih =>
    rw [Session.reached, List.foldl_append]
    exact ih.step step

/-- A handler writes a line as soon as the fields of its layout are supplied. -/
private theorem line?_eq_some (s : Session) (time : String) (m : Message) {h : Handler}
    (hfilter : h.layout = .fields → h.filters = 1) :
    s.line? time m h = some (s.stamp.line time m h.layout) := by
  rw [Session.line?]
  cases hlayout : h.layout with
  | bare => rfl
  | fields =>
    dsimp only
    rw [hfilter hlayout, if_neg Nat.one_ne_zero]
    rfl

/-- **What a record carries** is read off the steps before it. A handler has at most one filter.
Once the session is configured, and before if no handler came with the layout with fields, every
handler with this layout has exactly one, so it writes every line with all its fields; configuring
again changes the level alone. A run over a workspace leaves the context as it found it. -/
theorem reached_carries (level : Level) (layouts : List Layout) (steps : List Step) :
    (Session.reached level layouts steps).stamp = stampAfter steps ∧
    (∀ h ∈ (Session.reached level layouts steps).handlers, h.filters ≤ 1) ∧
    (steps.any Step.configures = true ∨ Layout.fields ∉ layouts →
      ∀ h ∈ (Session.reached level layouts steps).handlers,
        (h.layout = .fields → h.filters = 1) ∧
        ∀ time m, (Session.reached level layouts steps).line? time m h =
          some ((stampAfter steps).line time m h.layout)) ∧
    (steps.any Step.configures = true →
      (∀ h ∈ (Session.reached level layouts steps).handlers, h.layout = .fields) ∧
      ∀ again, (Session.reached level layouts steps).configure again =
        { Session.reached level layouts steps with level := again }) ∧
    ∀ (c : Context) (out : Sink) (d : Disk) (manifest : Manifest) (path : String)
      (strict continueOnError : Bool),
      c.after (WorkspaceRun.execute out d manifest path strict continueOnError).trace = c := by
  obtain ⟨hcontext, hrunId, hhandlers⟩ := follows_reached level layouts steps
  have hstamp : (Session.reached level layouts steps).stamp = stampAfter steps := by
    rw [Session.stamp, stampAfter, hcontext, hrunId, phase_contextOf, package_contextOf]
  have hbefore : ∀ {h : Handler}, steps.any Step.configures = false →
      h ∈ (Session.reached level layouts steps).handlers → h.filters = 0 ∧ h.layout ∈ layouts := by
    intro h hnever hmem
    rw [hhandlers, hnever] at hmem
    obtain ⟨layout, hlayout, rfl⟩ := List.mem_map.mp hmem
    exact ⟨rfl, hlayout⟩
  have hafter : ∀ {h : Handler}, steps.any Step.configures = true →
      h ∈ (Session.reached level layouts steps).handlers → h = ⟨.fields, 1⟩ := by
    intro h hdone hmem
    rw [hhandlers, hdone] at hmem
    exact List.eq_of_mem_replicate hmem
  refine ⟨hstamp, fun h hmem => ?_, fun hlayouts h hmem => ?_, fun hdone => ⟨fun h hmem => ?_, ?_⟩,
    ?_⟩
  · cases hdone : steps.any Step.configures with
    | false =>
      rw [(hbefore hdone hmem).1]
      exact Nat.zero_le 1
    | true => exact Nat.le_of_eq (congrArg Handler.filters (hafter hdone hmem))
  · have hfilter : h.layout = .fields → h.filters = 1 := by
      intro hfields
      cases hdone : steps.any Step.configures with
      | false =>
        rw [hdone] at hlayouts
        have hnone := hlayouts.resolve_left Bool.false_ne_true
        exact absurd (hfields ▸ (hbefore hdone hmem).2) hnone
      | true => rw [hafter hdone hmem]
    refine ⟨hfilter, fun time m => ?_⟩
    rw [line?_eq_some _ time m hfilter, hstamp]
  · rw [hafter hdone hmem]
  · intro again
    have hsame := handlers_configure hhandlers again
    rw [hdone] at hhandlers
    exact congrArg (fun handlers => { Session.reached level layouts steps with
      level := again, handlers }) (hsame.trans hhandlers.symm)
  · exact fun c out d manifest path strict continueOnError =>
      WorkspaceRun.steady_execute d out path strict manifest continueOnError c

/-- A warning. -/
def warned : Message :=
  ⟨Level.warning, "tsentries", "m"⟩

/-- **Before the session is configured** a record can lose its fields, though a phase is open: a
handler that came with the layout with fields has no filter and writes no line for it, and one that
came without it writes the bare message. -/
theorem reached_without_fields :
    stampAfter [.enter .phase "p"] = ⟨"-", "p", "-"⟩ ∧
    (Session.reached Level.warning [.fields] [.enter .phase "p"]).handlers = [⟨.fields, 0⟩] ∧
    (Session.reached Level.warning [.fields] [.enter .phase "p"]).lines "t" warned = [] ∧
    (Session.reached Level.warning [.bare] [.enter .phase "p"]).lines "t" warned = ["m"] := by
  decide

end Log

end ApiOutline
