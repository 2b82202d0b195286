import ApiOutline.Proofs.Module.Printing
import ApiOutline.Proofs.Project.Request
import ApiOutline.Proofs.Run.Arguments
import ApiOutline.Run.Package

/-!
# How the listing of one package ends

Whatever is on the disk and whatever texts the sink refuses, the run ends with a code, and the code
tells what became of it and of what was to be printed (`Exits`). Nothing is printed while the module
is looked for, and a problem of the configuration is a failure then only in strict mode, which is
what makes computations *discreet*; so code 2 stands for exactly this, and nothing has been printed.
Any other failure, also one half-way through the listing or of a text that is refused, gives code 1.
Code 0 stands for all that there was to print.

Of the arguments only those are not followed that are refused as they are taken apart, and those
that ask for a log level without saying which (`run_exits`).
-/

namespace ApiOutline

/-! ### Discreet computations -/

/-- Nothing is printed, and a problem of the configuration is the failure only in strict mode. -/
structure Outcome.Discreet {α : Type} (strict : Bool) (x : Outcome Failure α) : Prop where
  silent : x.Silent
  strict_of_config : ∀ problem, x.result = .error (.config problem) → strict = true

namespace Outcome.Discreet

variable {α β : Type} {strict : Bool}

private theorem of_bare {x : Outcome Failure α} (h : x.Bare) : x.Discreet strict :=
  ⟨h.plain.silent, fun problem hproblem => absurd hproblem (h.ne_config problem)⟩

theorem bind {x : Outcome Failure α} {f : α → Outcome Failure β} (hx : x.Discreet strict)
    (hf : ∀ a, (f a).Discreet strict) : (x >>= f).Discreet strict := by
  refine ⟨.bind hx.silent fun a => (hf a).silent, fun problem h => ?_⟩
  rw [bind_eq, result_andThen] at h
  rcases Except.bind_eq_error_iff.mp h with h | ⟨a, -, h⟩
  · exact hx.strict_of_config problem h
  · exact (hf a).strict_of_config problem h

theorem settle (strict : Bool) (problem : Config.Problem) (fallback : α) :
    (settle strict problem fallback).Discreet strict := by
  refine ⟨.settle strict problem fallback, fun _ h => ?_⟩
  cases strict with
  | false => cases h
  | true => rfl

theorem within {x : Outcome Failure α} (h : x.Discreet strict) (scope : Log.Scope)
    (name : String) : (within scope name x).Discreet strict :=
  ⟨(printed_within scope name x).trans h.silent, h.strict_of_config⟩

end Outcome.Discreet

/-- The loaders are discreet. -/
private theorem Outcome.discreet (strict : Bool) :
    Congruence (fun x _ => x.Discreet strict) strict strict :=
  { bare := .of_bare
    bind := .bind
    settle := fun _ fallback => .settle strict _ fallback }

/-- Whatever a project is asked for, it is discreet. -/
private theorem Project.discreet_ask (p : Project) (d : Disk) (r : Request) (cache : Cache) :
    ((r.ask p d) cache).2.Discreet p.strict :=
  (Likeness.of_outcomes (Outcome.discreet p.strict)).ask r cache

namespace PackageRun

/-! ### The course of a run -/

/-- What is printed when there is no module. -/
def Settings.notFound (s : Settings) : String :=
  s.named?.elim "Main module not found\n" fun path => "Module not found: " ++ path ++ "\n"

/-- The label of the listing. -/
def Settings.label (s : Settings) : String :=
  if s.named?.isSome then "Module" else "Main module"

/-- How a run goes, with its code and what it prints. -/
inductive Course (out : Sink) (d : Disk) (s : Settings) : Nat → String → Prop
  /-- The module cannot be looked for with this configuration. -/
  | refused {problem : Config.Problem} (h : (resolve d s).result = .error (.config problem)) :
      Course out d s 2 ""
  /-- Looking for the module fails. -/
  | lost {failure : Failure} (h : (resolve d s).result = .error failure)
      (hother : ∀ problem, failure ≠ .config problem) : Course out d s 1 ""
  /-- There is no module. -/
  | missing (h : (resolve d s).result = .ok none) (htaken : ¬out.Refuses s.notFound) :
      Course out d s 0 s.notFound
  /-- There is no module, and this cannot be printed. -/
  | unsaid (h : (resolve d s).result = .ok none) (hrefused : out.Refuses s.notFound) :
      Course out d s 1 ""
  /-- The listing comes to its end. -/
  | listed {entry : ModuleEntry} {stats : Stats} {output : String}
      (h : (resolve d s).result = .ok (some entry))
      (hprint : ((entry.print d s.json s.label).through out).result = .ok stats)
      (hshows : entry.Shows d s.label s.json output) : Course out d s 0 output
  /-- The listing fails, or a text of it is refused. -/
  | broken {entry : ModuleEntry} {failure : Failure} {output : String}
      (h : (resolve d s).result = .ok (some entry))
      (hfails : ((entry.print d s.json s.label).through out).result = .error failure)
      (hwhole : s.json = true → output = "") : Course out d s 1 output

private theorem discreet_resolve (d : Disk) (s : Settings) : (resolve d s).Discreet s.strict := by
  have hask := Project.discreet_ask ⟨d.absolute s.root, s.strict⟩ d
  unfold resolve
  cases s.named? with
  | some path => exact .within (hask (.moduleEntry path) {}) _ _
  | none => exact .within (hask .mainModuleEntry {}) _ _

variable (out : Sink) {d : Disk} {s : Settings}

private theorem attempt_of_config {problem : Config.Problem}
    (h : (resolve d s).result = .error (.config problem)) :
    (attempt out d s).result = .ok 2 ∧ printed (attempt out d s).trace = "" := by
  have hsilent : printed (resolve d s).trace = "" := (discreet_resolve d s).silent
  rw [attempt, Outcome.andThen_of_error h, Outcome.recover_of_error rfl]
  refine ⟨rfl, ?_⟩
  rw [Outcome.bind_eq, Outcome.printed_andThen_of_ok (a := .inr 2) rfl, printed_append, hsilent]
  simp [Outcome.log, Outcome.andThen, Outcome.ok, printed]

private theorem attempt_of_error {failure : Failure} (h : (resolve d s).result = .error failure)
    (hother : ∀ problem, failure ≠ .config problem) :
    attempt out d s = ⟨(resolve d s).trace, .error failure⟩ := by
  rw [attempt, Outcome.andThen_of_error h, Outcome.recover_of_error rfl]
  cases failure with
  | config problem => exact absurd rfl (hother problem)
  | _ => simp [Outcome.andThen, Outcome.fail]

/-- What is done with the module that was found, or with none, is all that is left to do. -/
private theorem attempt_of_ok {found : Option ModuleEntry} (h : (resolve d s).result = .ok found) :
    (attempt out d s).result = (list out d s found).result ∧
      printed (attempt out d s).trace = printed (list out d s found).trace := by
  have hsilent : printed (resolve d s).trace = "" := (discreet_resolve d s).silent
  rw [attempt, Outcome.andThen_of_ok h, Outcome.recover_of_ok rfl, Outcome.bind_eq]
  refine ⟨Outcome.result_andThen _ _, ?_⟩
  rw [Outcome.printed_andThen_of_ok (a := .inl found) rfl, printed_append, hsilent]
  exact String.empty_append

variable {out}

private theorem list_none_of_taken (h : ¬out.Refuses s.notFound) :
    (list out d s none).result = .ok 0 ∧ printed (list out d s none).trace = s.notFound := by
  have htakes : out.Takes (Outcome.print s.notFound : Outcome Failure Unit).trace := by
    intro text htext
    obtain rfl := Event.print.inj (List.mem_singleton.mp htext)
    exact h
  have hlist : list out d s none = (Outcome.print s.notFound).andThen fun _ => .ok 0 := by
    rw [← Outcome.through_of_takes htakes]
    rfl
  rw [hlist, Outcome.printed_andThen_of_ok (Outcome.result_print _)]
  exact ⟨rfl, by simp⟩

private theorem list_none_of_refused (h : out.Refuses s.notFound) : ∃ failure,
    (list out d s none).result = .error failure ∧ printed (list out d s none).trace = "" := by
  obtain ⟨complaint, h⟩ := h
  have hthrough : (Outcome.print s.notFound : Outcome Failure Unit).through out =
      .fail (.refused complaint) := by
    simp [Outcome.through, Outcome.print, Outcome.fail, Sink.cut, Sink.complaint?, h]
  have hlist : list out d s none = ((Outcome.print s.notFound).through out).andThen
      fun _ => .ok 0 := rfl
  rw [hlist, hthrough]
  exact ⟨_, rfl, rfl⟩

/-- After the listing only a note is made. -/
private theorem list_some (out : Sink) (d : Disk) (s : Settings) (entry : ModuleEntry) :
    (list out d s (some entry)).result =
        ((entry.print d s.json s.label).through out).result.map (fun _ => 0) ∧
      printed (list out d s (some entry)).trace =
        printed ((entry.print d s.json s.label).through out).trace := by
  rw [list, Outcome.bind_eq]
  constructor
  · rw [Outcome.result_andThen]
    change ((entry.print d s.json s.label).through out).result >>= _ = _
    cases ((entry.print d s.json s.label).through out).result <;> rfl
  · refine (Outcome.printed_andThen_of_silent fun stats => ?_).trans
      (Outcome.printed_within .phase "list" ((entry.print d s.json s.label).through out))
    exact .bind (.log _ _ _) fun _ => .ok 0

/-- Whatever the failure is, the run ends with code 1 and prints nothing more. -/
theorem run_of_error {failure : Failure} (h : (attempt out d s).result = .error failure) :
    (run out d s).result = .ok 1 ∧
      printed (run out d s).trace = printed (attempt out d s).trace := by
  rw [run, Outcome.recover_of_error h]
  dsimp only
  rw [printed_append]
  split
  · simp [Outcome.log, Outcome.andThen, Outcome.ok, printed]
  · simp [Outcome.log, Outcome.andThen, Outcome.ok, printed]

theorem run_of_ok {code : Nat} (h : (attempt out d s).result = .ok code) :
    (run out d s).result = .ok code ∧
      printed (run out d s).trace = printed (attempt out d s).trace := by
  rw [run, Outcome.recover_of_ok h]
  exact ⟨rfl, rfl⟩

/-- **Every run takes one of these courses.** -/
theorem exists_course (out : Sink) (d : Disk) (s : Settings) : ∃ code,
    (run out d s).result = .ok code ∧ Course out d s code (printed (run out d s).trace) := by
  cases hresolve : (resolve d s).result with
  | error failure =>
    by_cases hconfig : ∃ problem, failure = .config problem
    · obtain ⟨problem, rfl⟩ := hconfig
      obtain ⟨hresult, houtput⟩ := attempt_of_config out hresolve
      obtain ⟨hcode, hprinted⟩ := run_of_ok hresult
      rw [hprinted, houtput]
      exact ⟨2, hcode, .refused hresolve⟩
    · have hother : ∀ problem, failure ≠ .config problem :=
        fun problem h => hconfig ⟨problem, h⟩
      have hattempt := attempt_of_error out hresolve hother
      have hsilent : printed (resolve d s).trace = "" := (discreet_resolve d s).silent
      obtain ⟨hcode, hprinted⟩ := run_of_error (congrArg Outcome.result hattempt)
      rw [hprinted, hattempt, hsilent]
      exact ⟨1, hcode, .lost hresolve hother⟩
  | ok found =>
    obtain ⟨hresult, houtput⟩ := attempt_of_ok out hresolve
    cases found with
    | none =>
      by_cases hrefuses : out.Refuses s.notFound
      · obtain ⟨failure, hlist, hlisted⟩ := list_none_of_refused (d := d) hrefuses
        obtain ⟨hcode, hprinted⟩ := run_of_error (hresult.trans hlist)
        rw [hprinted, houtput, hlisted]
        exact ⟨1, hcode, .unsaid hresolve hrefuses⟩
      · obtain ⟨hlist, hlisted⟩ := list_none_of_taken (d := d) hrefuses
        obtain ⟨hcode, hprinted⟩ := run_of_ok (hresult.trans hlist)
        rw [hprinted, houtput, hlisted]
        exact ⟨0, hcode, .missing hresolve hrefuses⟩
    | some entry =>
      obtain ⟨hlist, hlisted⟩ := list_some out d s entry
      cases hprint : ((entry.print d s.json s.label).through out).result with
      | ok stats =>
        have hthrough := Outcome.through_of_result_eq_ok hprint
        rw [hprint] at hlist
        obtain ⟨hcode, hprinted⟩ := run_of_ok (hresult.trans hlist)
        rw [hprinted, houtput, hlisted, hthrough]
        exact ⟨0, hcode, .listed hresolve hprint (ModuleEntry.shows_of_print (hthrough ▸ hprint))⟩
      | error failure =>
        rw [hprint] at hlist
        obtain ⟨hcode, hprinted⟩ := run_of_error (hresult.trans hlist)
        rw [hprinted, houtput, hlisted]
        refine ⟨1, hcode, .broken hresolve hprint fun hjson => ?_⟩
        rw [hjson] at hprint ⊢
        exact ModuleEntry.silent_through_printJson hprint

/-! ### How a run ends -/

/-- All that there is to print: that there is no module, or the whole listing of the one that was
found. -/
def Complete (d : Disk) (s : Settings) (output : String) : Prop :=
  (resolve d s).result = .ok none ∧ output = s.notFound ∨
    ∃ entry, (resolve d s).result = .ok (some entry) ∧ entry.Shows d s.label s.json output

/-- In strict mode, looking for the module fails with a problem of the configuration. -/
def Refused (d : Disk) (s : Settings) : Prop :=
  s.strict = true ∧ ∃ problem, (resolve d s).result = .error (.config problem)

/-- Looking for the module fails with another failure, or it cannot be printed that there is none,
or the listing of the module that was found fails or has a text that is refused. -/
def Breaks (out : Sink) (d : Disk) (s : Settings) : Prop :=
  (∃ failure, (resolve d s).result = .error failure ∧ ∀ problem, failure ≠ .config problem) ∨
    (resolve d s).result = .ok none ∧ out.Refuses s.notFound ∨
    ∃ entry, (resolve d s).result = .ok (some entry) ∧
      ((∃ failure, (entry.print d s.json s.label).result = .error failure) ∨
        ∃ text, .print text ∈ (entry.print d s.json s.label).trace ∧ out.Refuses text)

/-- What the code of a run says about the run and about what it printed. -/
structure Exits (out : Sink) (d : Disk) (s : Settings) (code : Nat) (output : String) :
    Prop where
  code_le : code ≤ 2
  refused_iff : code = 2 ↔ Refused d s
  breaks_iff : code = 1 ↔ Breaks out d s
  silent : code = 2 → output = ""
  complete : code = 0 → Complete d s output
  whole : s.json = true → output = "" ∨ Complete d s output

/-- A course says how the run ends. -/
private theorem Course.exits {code : Nat} {output : String} (h : Course out d s code output) :
    Exits out d s code output := by
  cases h with
  | refused h =>
    have hrefused : Refused d s := ⟨(discreet_resolve d s).strict_of_config _ h, _, h⟩
    exact
      { code_le := by decide
        refused_iff := iff_of_true rfl hrefused
        breaks_iff := iff_of_false (by decide) (by simp [Breaks, h])
        silent := fun _ => rfl
        complete := nofun
        whole := fun _ => .inl rfl }
  | lost h hother =>
    exact
      { code_le := by decide
        refused_iff := iff_of_false (by decide) (by simp [Refused, h, hother])
        breaks_iff := iff_of_true rfl (.inl ⟨_, h, hother⟩)
        silent := nofun
        complete := nofun
        whole := fun _ => .inl rfl }
  | missing h htaken =>
    exact
      { code_le := by decide
        refused_iff := iff_of_false (by decide) (by simp [Refused, h])
        breaks_iff := iff_of_false (by decide) (by simp [Breaks, h, htaken])
        silent := nofun
        complete := fun _ => .inl ⟨h, rfl⟩
        whole := fun _ => .inr (.inl ⟨h, rfl⟩) }
  | unsaid h hrefused =>
    exact
      { code_le := by decide
        refused_iff := iff_of_false (by decide) (by simp [Refused, h])
        breaks_iff := iff_of_true rfl (.inr (.inl ⟨h, hrefused⟩))
        silent := nofun
        complete := nofun
        whole := fun _ => .inl rfl }
  | @listed entry stats output h hprint hshows =>
    have hends : ¬∃ failure,
        ((entry.print d s.json s.label).through out).result = .error failure := by
      rw [hprint]
      nofun
    rw [Outcome.exists_result_through_eq_error_iff] at hends
    exact
      { code_le := by decide
        refused_iff := iff_of_false (by decide) (by simp [Refused, h])
        breaks_iff := iff_of_false (by decide) (by simpa [Breaks, h] using hends)
        silent := nofun
        complete := fun _ => .inr ⟨_, h, hshows⟩
        whole := fun _ => .inr (.inr ⟨_, h, hshows⟩) }
  | broken h hfails hwhole =>
    exact
      { code_le := by decide
        refused_iff := iff_of_false (by decide) (by simp [Refused, h])
        breaks_iff := iff_of_true rfl (.inr (.inr ⟨_, h,
          Outcome.exists_result_through_eq_error_iff.mp ⟨_, hfails⟩⟩))
        silent := nofun
        complete := nofun
        whole := fun hjson => .inl (hwhole hjson) }

/-- What the arguments ask for is refused only where a log level is asked for without a text. -/
private theorem eq_noLevel_of_ofArguments {flag : Option String} {args : List String}
    {refusal : Arguments.Refusal} (h : Settings.ofArguments flag args = .error refusal) :
    refusal.Early ∨ refusal = .noLevel ∧ Arguments.Textless spec args "--log-level" := by
  rw [Settings.ofArguments] at h
  rcases Except.bind_eq_error_iff.mp h with h | ⟨requests, hrequests, h⟩
  · exact .inl (Arguments.early_of_parse h)
  · rcases Except.bind_eq_error_iff.mp h with h | ⟨level, -, h⟩
    · obtain ⟨hrefusal, hgiven⟩ := Arguments.logLevel_eq_error_iff.mp h
      exact .inr ⟨hrefusal, requests, hrequests, hgiven⟩
    · cases h

/-- **How the listing of a package ends.** Whatever is on the disk, whatever the sink refuses, and
whatever the arguments are, if they are followed then the run ends with a code that says what became
of it and of what it printed. Arguments are not followed that are refused as they are taken apart,
and otherwise only those that give no text for the log level. -/
theorem run_exits (out : Sink) (d : Disk) (flag : Option String) (args : List String) :
    match Settings.ofArguments flag args with
    | .ok s => ∃ code, (run out d s).result = .ok code ∧
        Exits out d s code (printed (run out d s).trace)
    | .error refusal =>
      refusal.Early ∨ refusal = .noLevel ∧ Arguments.Textless spec args "--log-level" := by
  cases h : Settings.ofArguments flag args with
  | ok s =>
    obtain ⟨code, hcode, hcourse⟩ := exists_course out d s
    exact ⟨code, hcode, hcourse.exits⟩
  | error refusal => exact eq_noLevel_of_ofArguments h

end PackageRun

end ApiOutline
