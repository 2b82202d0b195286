import ApiOutline.Proofs.Json.RoundTrip
import ApiOutline.Proofs.Project.Transparency
import ApiOutline.Run.Workspace
import Mathlib.Data.List.Forall2

/-!
# Packages of a run do not disturb one another

A run over a workspace lists its enabled packages one after the other. A failure in one of them, be
it that the sink refuses a text, is caught where it happens, so what a package leaves, its section
of the report and its block of the output, depends on that package and the disk alone. The whole run
is then told by the list of these parts (`execute_parts`): a run that passes failures over reports
all of them, a run that does not reports those up to the first failure, and the status of either is
read off the parts that it reports.

Only what is reported and printed is compared. The notes that are logged on the way are those of
the packages in a row, too, but no statement is made about them here.
-/

namespace ApiOutline

private theorem Except.length_of_mapM_eq_ok {ε α β : Type} {f : α → Except ε β} {items : List α}
    {results : List β} (h : items.mapM f = .ok results) : results.length = items.length := by
  induction items generalizing results with
  | nil =>
    obtain rfl := Except.ok.inj h
    rfl
  | cons item rest ih =>
    rw [List.mapM_cons] at h
    obtain ⟨first, -, h⟩ := Except.bind_eq_ok_iff.mp h
    obtain ⟨others, hothers, h⟩ := Except.bind_eq_ok_iff.mp h
    rw [← Except.ok.inj h, List.length_cons, List.length_cons, ih hothers]

namespace WorkspaceRun

open Manifest (Package)

/-! ### The parts of a run -/

/-- What a run leaves of one package: its section of the report and its block of the output. -/
structure Part where
  report : Json.Fields
  block : String

/-- Whether the section says that the package succeeded. -/
def Part.succeeded (part : Part) : Bool :=
  (part.report.get? "status").bind Json.asStr? = some "success"

/-- The parts up to and including the first that failed. -/
def upToFailure (parts : List Part) : List Part :=
  parts.takeWhile Part.succeeded ++ (parts.dropWhile Part.succeeded).take 1

/-- A run ends with a report that holds the sections of `parts` and the status, and it has printed
the blocks of `parts` and nothing else. -/
structure Ends (x : Outcome Failure (Json.Fields × Report.Status)) (workspace : String)
    (parts : List Part) (status : Report.Status) : Prop where
  result : x.result = .ok ([("workspace_name", .str workspace),
    ("packages", .arr (parts.map fun part => .obj part.report)), ("status", .str status.text)],
    status)
  output : printed x.trace = String.join (parts.map Part.block)

/-- None of the parts is of a package that succeeded. -/
def NoneSucceeded (parts : List Part) : Prop :=
  ∀ part ∈ parts, part.succeeded = false

/-- There are packages, and every one of them has its part and succeeded. -/
def AllSucceeded (packages : List Package) (parts : List Part) : Prop :=
  packages ≠ [] ∧ List.Forall₂ (fun package part =>
    part.report.get? "name" = some (.str package.name) ∧ part.succeeded = true) packages parts

/-- What a status says about a run over `packages` that left `parts`. -/
def Says (packages : List Package) (parts : List Part) : Report.Status → Prop
  | .failed => NoneSucceeded parts
  | .success => AllSucceeded packages parts
  | .partialSuccess => ¬NoneSucceeded parts ∧ ¬AllSucceeded packages parts

/-- A run over the enabled packages of a manifest ends with `parts`, and its status says how these
packages went. -/
def Reports (out : Sink) (d : Disk) (manifest : Manifest) (manifestPath : String)
    (strict continueOnError : Bool) (parts : List Part) : Prop :=
  ∃ status, Ends (execute out d manifest manifestPath strict continueOnError) manifest.workspace
      parts status ∧
    ∀ s, status = s ↔ Says (manifest.packages.filter Package.enabled) parts s

/-- The project at the root of a package. -/
def projectOf (d : Disk) (manifestPath : String) (strict : Bool) (package : Package) : Project :=
  ⟨d.absolute (Manifest.packageRoot d manifestPath package), package.strict.getD strict⟩

/-- Whether a project answers that it has no module at a path. -/
def lacks (p : Project) (d : Disk) (path : String) : Bool :=
  (p.moduleEntry d path {}).2.result.toOption.elim false Option.isNone

/-- A section accounts for what its package asks for: every module is listed or missing, and those
missing are the ones that the project lacks, in the order in which they were asked for. A package
that asks for no module has its main module listed or missing. -/
def Accounts (p : Project) (d : Disk) (package : Package) (part : Part) : Prop :=
  ∃ modules missing : List String,
    part.report.get? "modules" = some (textArray modules) ∧
    part.report.get? "missing_modules" = some (textArray missing) ∧
    modules.length + missing.length =
      (if package.modules = [] then 1 else package.modules.length) ∧
    if package.modules = [] then missing.Sublist ["<main>"]
    else missing = package.modules.filter (lacks p d)

/-! ### Looking for the modules of a package -/

section Resolve

variable {p : Project} {d : Disk}

private theorem transparent_findModules (p : Project) (d : Disk) (modules : List String) :
    Project.Transparent p d (findModules p d modules) := by
  induction modules with
  | nil => exact .lift (.ok ([], []))
  | cons path rest ih =>
    rw [findModules]
    refine .bind (Project.transparent_ask p d (.moduleEntry path)) fun entry => ?_
    exact .bind ih fun found => .lift _

/-- Every module that is looked for is found or missing, and the missing ones are in order. -/
private theorem findModules_accounts {modules : List String} {found : List ModuleEntry}
    {missing : List String} (h : (findModules p d modules {}).2.result = .ok (found, missing)) :
    found.length + missing.length = modules.length ∧ missing = modules.filter (lacks p d) := by
  induction modules generalizing found missing with
  | nil =>
    cases Except.ok.inj h
    exact ⟨rfl, rfl⟩
  | cons path rest ih =>
    have hfirst : Project.Transparent p d (p.moduleEntry d path) :=
      Project.transparent_ask p d (.moduleEntry path)
    -- the modules after the first are looked for as if they were the first
    rw [findModules, hfirst.result_bind_eq] at h
    · obtain ⟨entry, hentry, h⟩ := Except.bind_eq_ok_iff.mp h
      obtain ⟨⟨others, lacking⟩, hothers, h⟩ := Query.result_bind_eq_ok_iff.mp h
      obtain ⟨hlength, hmissing⟩ := ih hothers
      have hlacks : lacks p d path = entry.isNone := by
        rw [lacks, hentry, Except.toOption, Option.elim_some]
      cases entry with
      | none =>
        cases Except.ok.inj h
        refine ⟨by rw [List.length_cons, List.length_cons, ← hlength]; rfl, ?_⟩
        rw [List.filter_cons_of_pos hlacks, hmissing]
      | some entry =>
        cases Except.ok.inj h
        refine ⟨by rw [List.length_cons, List.length_cons, ← hlength]; omega, ?_⟩
        rw [List.filter_cons_of_neg (by rw [hlacks]; exact Bool.false_ne_true), hmissing]
    · intro entry
      exact .bind (transparent_findModules p d rest) fun found => .lift _

/-- The main module is found or missing. -/
private theorem resolve_main {found : List ModuleEntry} {missing : List String}
    (h : (resolve p d [] {}).2.result = .ok (found, missing)) :
    found.length + missing.length = 1 ∧ missing.Sublist ["<main>"] := by
  rw [resolve] at h
  obtain ⟨entry, -, h⟩ := Query.result_bind_eq_ok_iff.mp h
  cases entry with
  | none =>
    cases Except.ok.inj h
    exact ⟨rfl, .refl _⟩
  | some entry =>
    cases Except.ok.inj h
    exact ⟨rfl, List.nil_sublist _⟩

end Resolve

/-! ### One package -/

section Package

variable {out : Sink} {d : Disk} {manifestPath : String} {strict : Bool} {package : Package}

/-- The section of a package that was listed. -/
private theorem accounts_of_processPackage {fields : Json.Fields} (block : String)
    (h : (processPackage out d manifestPath strict package).result = .ok fields) :
    fields.get? "name" = some (.str package.name) ∧ Part.succeeded ⟨fields, block⟩ = true ∧
      Accounts (projectOf d manifestPath strict package) d package ⟨fields, block⟩ := by
  rw [processPackage] at h
  obtain ⟨summary, -, h⟩ := Outcome.result_andThen_eq_ok_iff.mp h
  obtain ⟨⟨found, missing⟩, hresolve, h⟩ := Outcome.result_andThen_eq_ok_iff.mp h
  obtain ⟨stats, -, h⟩ := Outcome.result_andThen_eq_ok_iff.mp h
  obtain ⟨names, hnames, h⟩ := Outcome.result_andThen_eq_ok_iff.mp h
  have hlength : names.length = found.length :=
    Except.length_of_mapM_eq_ok (Except.mapError_eq_ok_iff.mp hnames)
  obtain rfl := Except.ok.inj h
  refine ⟨rfl, by simp [Part.succeeded, Json.Fields.get?_cons, Json.asStr?], names, missing, rfl,
    rfl, ?_⟩
  change (resolve (projectOf d manifestPath strict package) d package.modules {}).2.result = _
    at hresolve
  rw [hlength]
  cases hmodules : package.modules with
  | nil =>
    rw [hmodules] at hresolve
    rw [if_pos rfl, if_pos rfl]
    exact resolve_main hresolve
  | cons path rest =>
    rw [hmodules, resolve] at hresolve
    · rw [if_neg (List.cons_ne_nil path rest), if_neg (List.cons_ne_nil path rest)]
      exact findModules_accounts hresolve
    · exact List.cons_ne_nil path rest

/-- The section of a package that was listed is an object that holds lists and an object with
lists. -/
private theorem nesting_of_processPackage {fields : Json.Fields}
    (h : (processPackage out d manifestPath strict package).result = .ok fields) :
    (Json.obj fields).nesting ≤ 3 := by
  rw [processPackage] at h
  obtain ⟨summary, -, h⟩ := Outcome.result_andThen_eq_ok_iff.mp h
  obtain ⟨⟨found, missing⟩, -, h⟩ := Outcome.result_andThen_eq_ok_iff.mp h
  obtain ⟨stats, -, h⟩ := Outcome.result_andThen_eq_ok_iff.mp h
  obtain ⟨names, -, h⟩ := Outcome.result_andThen_eq_ok_iff.mp h
  obtain rfl := Except.ok.inj h
  have htexts (texts : List String) : (textArray texts).nesting ≤ 1 := Json.nesting_texts_le texts
  have hsummary : (summaryJson summary).nesting ≤ 2 := by
    refine Nat.succ_le_succ (Json.nestingOfFields_le_iff.mpr ?_)
    simp only [List.forall_mem_cons]
    exact ⟨Nat.zero_le 1, Nat.zero_le 1, htexts _, htexts _, List.forall_mem_nil _⟩
  have hstats : stats.toJson.nesting ≤ 2 := Nat.le_succ 1
  refine Nat.succ_le_succ (Json.nestingOfFields_le_iff.mpr ?_)
  simp only [List.forall_mem_cons]
  exact ⟨Nat.zero_le 2, Nat.zero_le 2, Nat.zero_le 2, hsummary, (htexts _).trans (Nat.le_succ 1),
    (htexts _).trans (Nat.le_succ 1), hstats, List.forall_mem_nil _⟩

/-- A package leaves a part, and never a failure: the section says how it went. -/
structure Leaves (out : Sink) (d : Disk) (manifestPath : String) (strict : Bool)
    (package : Package) (part : Part) : Prop where
  result : (packageSection out d manifestPath strict package).result =
    .ok (part.report, part.succeeded)
  output : printed (packageSection out d manifestPath strict package).trace = part.block
  name : part.report.get? "name" = some (.str package.name)
  nesting : (Json.obj part.report).nesting ≤ 3
  accounts : part.succeeded = true →
    Accounts (projectOf d manifestPath strict package) d package part

/-- **Whatever happens in a package**, it leaves a part. -/
theorem exists_leaves (out : Sink) (d : Disk) (manifestPath : String) (strict : Bool)
    (package : Package) : ∃ part, Leaves out d manifestPath strict package part := by
  obtain ⟨block, hblock⟩ :
      ∃ block, printed (packageSection out d manifestPath strict package).trace = block := ⟨_, rfl⟩
  cases h : (processPackage out d manifestPath strict package).result with
  | ok fields =>
    have hresult : (packageSection out d manifestPath strict package).result =
        .ok (fields, true) := by
      simp only [packageSection, Outcome.within, Outcome.recover, Outcome.andThen, h]
      rfl
    obtain ⟨hname, hsucceeded, haccounts⟩ := accounts_of_processPackage block h
    refine ⟨⟨fields, block⟩, ?_, hblock, hname, nesting_of_processPackage h, fun _ => haccounts⟩
    rw [hresult, hsucceeded]
  | error failure =>
    have hresult : (packageSection out d manifestPath strict package).result =
        .ok (failedSection package failure, false) := by
      simp only [packageSection, Outcome.within, Outcome.recover, Outcome.andThen, h]
      rfl
    have hfailed : Part.succeeded ⟨failedSection package failure, block⟩ = false := by
      simp [Part.succeeded, failedSection, Json.Fields.get?_cons, Json.asStr?]
    have hnesting : (Json.obj (failedSection package failure)).nesting ≤ 3 :=
      Nat.le_add_left 1 2
    refine ⟨⟨failedSection package failure, block⟩, ?_, hblock, rfl, hnesting, fun hsucceeded => ?_⟩
    · rw [hresult, hfailed]
    · rw [hfailed] at hsucceeded
      cases hsucceeded

end Package

/-! ### The parts that are reported -/

private theorem upToFailure_cons (part : Part) (rest : List Part) :
    upToFailure (part :: rest) = if part.succeeded then part :: upToFailure rest else [part] := by
  cases h : part.succeeded <;> simp [upToFailure, h]

private theorem upToFailure_isPrefix (parts : List Part) : upToFailure parts <+: parts := by
  induction parts with
  | nil => exact List.nil_prefix
  | cons part rest ih =>
    rw [upToFailure_cons]
    split
    · exact (List.prefix_cons_inj part).mpr ih
    · exact (List.prefix_cons_inj part).mpr List.nil_prefix

/-- The parts that a run reports. -/
def reported (continueOnError : Bool) (parts : List Part) : List Part :=
  if continueOnError then parts else upToFailure parts

private theorem reported_cons (continueOnError : Bool) (part : Part) (rest : List Part) :
    reported continueOnError (part :: rest) =
      if part.succeeded || continueOnError then part :: reported continueOnError rest
      else [part] := by
  cases continueOnError with
  | true => rw [Bool.or_true]; rfl
  | false =>
    rw [Bool.or_false]
    exact upToFailure_cons part rest

theorem reported_isPrefix (continueOnError : Bool) (parts : List Part) :
    reported continueOnError parts <+: parts := by
  cases continueOnError with
  | true => exact List.prefix_rfl
  | false => exact upToFailure_isPrefix parts

section Run

variable {out : Sink} {d : Disk} {manifestPath : String} {strict : Bool}
  {packages : List Package} {parts : List Part}

theorem exists_parts (out : Sink) (d : Disk) (manifestPath : String) (strict : Bool)
    (packages : List Package) :
    ∃ parts, List.Forall₂ (Leaves out d manifestPath strict) packages parts := by
  induction packages with
  | nil => exact ⟨[], .nil⟩
  | cons package rest ih =>
    obtain ⟨part, hpart⟩ := exists_leaves out d manifestPath strict package
    obtain ⟨parts, hparts⟩ := ih
    exact ⟨part :: parts, .cons hpart hparts⟩

/-- **The packages in a row** leave what each of them leaves, as far as they are reported. -/
theorem packageSections_reported
    (h : List.Forall₂ (Leaves out d manifestPath strict) packages parts) (continueOnError : Bool) :
    (packageSections out d manifestPath strict continueOnError packages).result =
        .ok ((reported continueOnError parts).map fun part => (part.report, part.succeeded)) ∧
      printed (packageSections out d manifestPath strict continueOnError packages).trace =
        String.join ((reported continueOnError parts).map Part.block) := by
  induction h with
  | nil => cases continueOnError <;> exact ⟨rfl, rfl⟩
  | @cons package part rest others hpart hrest ih =>
    obtain ⟨hresult, houtput⟩ := ih
    rw [packageSections, Outcome.bind_eq, Outcome.andThen_of_ok hpart.result, reported_cons]
    dsimp only
    split
    · rw [Outcome.bind_eq, Outcome.andThen_of_ok hresult]
      refine ⟨rfl, ?_⟩
      rw [printed_append, hpart.output, List.map_cons, String.join_cons, ← houtput]
      simp [Outcome.ok]
    · refine ⟨rfl, ?_⟩
      rw [printed_append, hpart.output, List.map_cons, String.join_cons]
      simp [Outcome.ok, printed]

/-! ### The status -/

private theorem finalStatus_eq_failed_iff {enabled succeeded : Int} :
    Report.finalStatus enabled succeeded = .failed ↔ succeeded ≤ 0 := by
  rw [Report.finalStatus]
  split_ifs <;> simp <;> omega

private theorem finalStatus_eq_success_iff {enabled succeeded : Int} :
    Report.finalStatus enabled succeeded = .success ↔ 0 < succeeded ∧ enabled ≤ succeeded := by
  rw [Report.finalStatus]
  split_ifs <;> simp <;> omega

/-- Parts that name their packages have all succeeded if each of them has. -/
private theorem allSucceeded_iff_forall
    (h : List.Forall₂ (Leaves out d manifestPath strict) packages parts) :
    AllSucceeded packages parts ↔ packages ≠ [] ∧ ∀ part ∈ parts, part.succeeded = true := by
  refine and_congr_right fun _ => ⟨fun hall => ?_, fun hall => ?_⟩
  · exact ((List.forall₂_and_left _ _).mp (hall.flip.imp fun _ _ h => ⟨h.2, h.1⟩)).1
  · exact ((List.forall₂_and_left _ _).mpr ⟨hall, h.flip⟩).flip.imp fun _ _ h => ⟨h.2.name, h.1⟩

/-- As many packages as there are succeeded exactly when all of them did. -/
private theorem allSucceeded_iff_length
    (h : List.Forall₂ (Leaves out d manifestPath strict) packages parts)
    {shown : List Part} (hshown : shown <+: parts) :
    AllSucceeded packages shown ↔ 0 < (shown.filter Part.succeeded).length ∧
      packages.length ≤ (shown.filter Part.succeeded).length := by
  have hcount := List.length_filter_le Part.succeeded shown
  have hlength := h.length_eq
  have hprefix := hshown.length_le
  constructor
  · intro hall
    obtain rfl : shown = parts := hshown.eq_of_length (hall.2.length_eq.symm.trans hlength)
    obtain ⟨hne, hall⟩ := (allSucceeded_iff_forall h).mp hall
    rw [List.filter_eq_self.mpr hall, ← hlength]
    exact ⟨List.length_pos_of_ne_nil hne, Nat.le_refl _⟩
  · rintro ⟨hpos, hle⟩
    -- nothing was left out, and nothing failed
    obtain rfl : shown = parts := hshown.eq_of_length (by omega)
    refine (allSucceeded_iff_forall h).mpr ⟨List.ne_nil_of_length_pos (by omega), ?_⟩
    exact List.filter_eq_self.mp (List.filter_sublist.eq_of_length (by omega))

/-- **The status says** how the packages went, whatever part of them is reported. -/
theorem finalStatus_eq_iff (h : List.Forall₂ (Leaves out d manifestPath strict) packages parts)
    {shown : List Part} (hshown : shown <+: parts) (status : Report.Status) :
    Report.finalStatus packages.length (shown.filter Part.succeeded).length = status ↔
      Says packages shown status := by
  have hfailed : Report.finalStatus packages.length (shown.filter Part.succeeded).length = .failed ↔
      NoneSucceeded shown := by
    rw [finalStatus_eq_failed_iff, NoneSucceeded]
    simp [List.filter_eq_nil_iff]
  have hsuccess : Report.finalStatus packages.length (shown.filter Part.succeeded).length =
      .success ↔ AllSucceeded packages shown := by
    rw [finalStatus_eq_success_iff, allSucceeded_iff_length h hshown]
    omega
  cases status with
  | failed => exact hfailed
  | success => exact hsuccess
  | partialSuccess =>
    rw [Says, ← hfailed, ← hsuccess]
    cases Report.finalStatus packages.length (shown.filter Part.succeeded).length <;> simp

/-! ### Whole runs -/

/-- A run reports what its packages leave, up to the first failure unless it goes on. -/
theorem reports_reported {manifest : Manifest}
    (h : List.Forall₂ (Leaves out d manifestPath strict) (manifest.packages.filter Package.enabled)
      parts) (continueOnError : Bool) :
    Reports out d manifest manifestPath strict continueOnError
      (reported continueOnError parts) := by
  obtain ⟨hresult, houtput⟩ := packageSections_reported h continueOnError
  refine ⟨_, ⟨?_, ?_⟩, finalStatus_eq_iff h (reported_isPrefix continueOnError parts)⟩
  · rw [execute, Outcome.bind_eq, Outcome.andThen_of_ok hresult]
    simp [List.filter_map, Function.comp_def]
  · rw [execute, Outcome.bind_eq, Outcome.andThen_of_ok hresult, printed_append, houtput]
    simp [printed, Outcome.ok]

/-- The report of a run is an object with a list of sections. -/
theorem nesting_of_ends {x : Outcome Failure (Json.Fields × Report.Status)} {workspace : String}
    {report : Json.Fields} {status other : Report.Status} (hends : Ends x workspace parts status)
    (h : x.result = .ok (report, other))
    (hparts : ∀ part ∈ parts, (Json.obj part.report).nesting ≤ 3) :
    (Json.obj report).nesting ≤ 5 := by
  obtain ⟨rfl, -⟩ := Prod.mk.inj (Except.ok.inj (hends.result.symm.trans h))
  have hsections : (Json.arr (parts.map fun part => .obj part.report)).nesting ≤ 4 := by
    refine Nat.succ_le_succ (Json.nestingOfItems_le_iff.mpr fun item hitem => ?_)
    obtain ⟨part, hpart, rfl⟩ := List.mem_map.mp hitem
    exact hparts part hpart
  refine Nat.succ_le_succ (Json.nestingOfFields_le_iff.mpr ?_)
  simp only [List.forall_mem_cons]
  exact ⟨Nat.zero_le 4, hsections, Nat.zero_le 4, List.forall_mem_nil _⟩

/-- **Packages of a run do not disturb one another.** There is one part for each enabled package,
in order and with the package's name, that a run over this package alone reports, too. A run that
passes failures over reports all the parts, and one that does not those up to the first failure.
A section of a package that succeeded accounts for what the package asks for. -/
theorem execute_parts (out : Sink) (d : Disk) (manifest : Manifest) (manifestPath : String)
    (strict : Bool) :
    ∃ parts : List Part,
      List.Forall₂ (fun package part =>
        part.report.get? "name" = some (.str package.name) ∧
        (∀ continueOnError, Reports out d { manifest with packages := [package] } manifestPath
          strict continueOnError [part]) ∧
        (part.succeeded = true →
          Accounts (projectOf d manifestPath strict package) d package part))
        (manifest.packages.filter Package.enabled) parts ∧
      Reports out d manifest manifestPath strict true parts ∧
      Reports out d manifest manifestPath strict false (upToFailure parts) := by
  obtain ⟨parts, h⟩ :=
    exists_parts out d manifestPath strict (manifest.packages.filter Package.enabled)
  refine ⟨parts, ?_, reports_reported h true, reports_reported h false⟩
  have henabled : ∀ package ∈ manifest.packages.filter Package.enabled, package.enabled = true :=
    fun _ hmem => (List.mem_filter.mp hmem).2
  refine ((List.forall₂_and_left _ _).mpr ⟨henabled, h⟩).imp fun package part hpart => ?_
  obtain ⟨henabled, hpart⟩ := hpart
  refine ⟨hpart.name, fun continueOnError => ?_, hpart.accounts⟩
  have hsingle : List.Forall₂ (Leaves out d manifestPath strict) ([package].filter Package.enabled)
      [part] := by
    rw [List.filter_cons_of_pos henabled]
    exact .cons hpart .nil
  have halone : reported continueOnError [part] = [part] := by
    rw [reported_cons]
    cases continueOnError <;> simp [reported, upToFailure]
  rw [← halone]
  exact reports_reported hsingle continueOnError

end Run

end WorkspaceRun

end ApiOutline
