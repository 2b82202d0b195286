import ApiOutline.Proofs.Run.Arguments
import ApiOutline.Proofs.Run.Workspace

/-!
# How a run over a workspace ends

A run either ends with a code or fails, and which of these is decided at its two ends. A manifest
that does not load ends it with code 2 before anything is printed or written, unless the failure is
of a kind that the run does not know as one of manifests (`Escapes`): a text in a notation other
than JSON that cannot be taken apart, JSON that is nested too deep, or a name that is too long. In
between nothing fails, as what goes wrong in a package is reported. At last the report is written,
and a run whose report can be written ends with code 1 if the report says that it failed and with
code 0 otherwise (`Exits`). That holds of all arguments that are followed (`run_ends`).
-/

namespace ApiOutline

/-! ### Why a manifest does not load -/

/-- The failures with which loading a manifest can end. -/
inductive Manifest.Unloadable : Failure → Prop
  | manifest (problem : Problem) : Unloadable (.manifest problem)
  | encoding (fault : Utf8.Fault) : Unloadable (.encoding fault)
  | json (fault : Json.Fault) : Unloadable (.json fault)
  | unreadable (complaint : Complaint) : Unloadable (.unreadable complaint)
  | nameTooLong (path : String) : Unloadable (.disk ⟨.nameTooLong, path⟩)

/-- Looking at a path fails only where a name is too long. -/
private theorem Disk.eq_of_probe_error {d : Disk} {path : String} {fault : Disk.Fault}
    (h : d.probe path = .error fault) : fault = ⟨.nameTooLong, path⟩ := by
  rw [probe] at h
  split at h
  · cases h
  · exact (Except.error.inj h).symm
  · cases h

private theorem Manifest.unloadable_of_readDocument {d : Disk} {path : String} {failure : Failure}
    (h : readDocument d path = .error failure) : Unloadable failure := by
  rw [readDocument] at h
  rcases Except.bind_eq_error_iff.mp h with h | ⟨item, -, h⟩
  · obtain ⟨fault, hfault, rfl⟩ := Except.mapError_eq_error_iff.mp h
    rw [Disk.eq_of_probe_error hfault]
    exact .nameTooLong _
  · split at h
    · next file =>
      rcases Except.bind_eq_error_iff.mp h with h | ⟨text, -, h⟩
      · obtain ⟨fault, -, rfl⟩ := Except.mapError_eq_error_iff.mp h
        exact .encoding fault
      · split at h
        · rcases Except.bind_eq_error_iff.mp h with h | ⟨_, -, h⟩
          · obtain ⟨fault, -, rfl⟩ := Except.mapError_eq_error_iff.mp h
            exact .json fault
          · cases h
        · obtain ⟨complaint, -, rfl⟩ := Except.mapError_eq_error_iff.mp h
          exact .unreadable complaint
    · rw [← Except.error.inj h]
      exact .manifest _

private theorem Manifest.unloadable_of_load {d : Disk} {path : String} {failure : Failure}
    (h : load d path = .error failure) : Unloadable failure := by
  rw [load] at h
  rcases Except.bind_eq_error_iff.mp h with h | ⟨document, -, h⟩
  · exact unloadable_of_readDocument h
  · obtain ⟨problem, -, rfl⟩ := Except.mapError_eq_error_iff.mp h
    exact .manifest problem

namespace WorkspaceRun

/-- A failure to load a manifest that ends the run without a code. -/
inductive Escapes : Failure → Prop
  | unclear (name : String) : Escapes (.unreadable (.unclear name))
  | tooDeep (fault : Json.Fault) (h : fault.isTooDeep = true) : Escapes (.json fault)
  | nameTooLong (path : String) : Escapes (.disk ⟨.nameTooLong, path⟩)

/-- Exactly the failures that escape are not taken for failures of the manifest. -/
private theorem isInvalid_eq_false_iff {failure : Failure} (h : Manifest.Unloadable failure) :
    isInvalid failure = false ↔ Escapes failure := by
  cases h with
  | manifest problem => exact iff_of_false (by simp [isInvalid]) nofun
  | encoding fault => exact iff_of_false (by simp [isInvalid]) nofun
  | json fault =>
    rw [isInvalid, Bool.not_eq_false']
    exact ⟨.tooDeep fault, fun | .tooDeep _ h => h⟩
  | unreadable complaint =>
    cases complaint with
    | unclear name => exact iff_of_true rfl (.unclear name)
    | senseless name => exact iff_of_false (by simp [isInvalid]) nofun
  | nameTooLong path => exact iff_of_true rfl (.nameTooLong path)

/-! ### Writing the report -/

/-- The folder of the report: the one that is asked for, or else that of the manifest. -/
def Settings.folder (s : Settings) (manifest : Manifest) : String :=
  (s.reportDir.filter (· ≠ "")).getD manifest.reportDir

/-- A report can be written below a folder: the folder can be made, and then a file in it, whatever
the file holds. -/
def Writable (d : Disk) (folder runId : String) : Prop :=
  ∃ made, (d.makeFolders folder).result = .ok made ∧
    ∀ file, ∃ after, made.write (Report.pathIn folder runId) file = .ok after

/-- Whether a file can be written does not depend on what it holds. -/
private theorem exists_write {d after : Disk} {path : String} {file : File}
    (h : d.write path file = .ok after) (other : File) :
    ∃ after, d.write path other = .ok after := by
  rw [Disk.write] at h ⊢
  split at h
  · cases h
  · exact ⟨_, rfl⟩
  · split at h
    · cases h
    · next hfolder => exact ⟨_, if_neg hfolder⟩

/-- What is added to a report leaves its status as it is. -/
private theorem get?_status_stamp (report : Json.Fields) (runId time : String) :
    (Report.stamp report runId time).get? "status" = report.get? "status" := by
  have hdefault {name : String} (h : "status" ≠ name) (fields : Json.Fields) (value : String) :
      (Report.withDefault fields name value).get? "status" = fields.get? "status" := by
    rw [Report.withDefault]
    split
    · rfl
    · rw [Json.Fields.get?_put, if_neg h]
  rw [Report.stamp, hdefault (by decide), hdefault (by decide)]

private theorem nesting_withDefault_le {fields : Json.Fields} {name value : String} {n : Nat}
    (h : (Json.obj fields).nesting ≤ n) :
    (Json.obj (Report.withDefault fields name value)).nesting ≤ n := by
  rw [Report.withDefault]
  split_ifs
  · exact h
  · obtain ⟨n, rfl⟩ : ∃ k, n = k + 1 := ⟨n - 1, by rw [Json.nesting] at h; omega⟩
    have hfields := Json.nestingOfFields_le_iff.mp (Nat.le_of_succ_le_succ h)
    refine Nat.succ_le_succ (Json.nestingOfFields_le_iff.mpr fun field hfield => ?_)
    rcases Json.Fields.mem_put hfield with rfl | hfield
    · exact Nat.zero_le n
    · exact hfields field hfield

/-- What is added to a report lies no deeper. -/
theorem nesting_stamp_le {report : Json.Fields} {n : Nat} (h : (Json.obj report).nesting ≤ n)
    (runId time : String) : (Json.obj (Report.stamp report runId time)).nesting ≤ n :=
  nesting_withDefault_le (nesting_withDefault_le h)

/-- A run has written a report that says its status, and nothing else. -/
def Wrote (d : Disk) (folder runId : String) (status : Report.Status) (result : Result) : Prop :=
  result.report = some (Report.pathIn folder runId) ∧
    ∃ made, ∃ fields : Json.Fields, (d.makeFolders folder).result = .ok made ∧
      made.write (Report.pathIn folder runId)
        { bytes := Utf8.encode ((Json.obj fields).write Report.style) } = .ok result.disk ∧
      fields.get? "status" = some (.str status.text)

/-- Saving a report makes its folder and then writes it, if it is not nested too deep. -/
theorem save_eq_ok_iff {d : Disk} {report : Json.Fields} {runId time folder : String}
    {saved : Disk × String} :
    Report.save d report runId time folder = .ok saved ↔
      (Json.obj (Report.stamp report runId time)).nesting ≤ d.limits.writing ∧
      ∃ made, (d.makeFolders folder).result = .ok made ∧
        made.write (Report.pathIn folder runId)
          { bytes := Utf8.encode (Report.text report runId time) } = .ok saved.1 ∧
        saved.2 = Report.pathIn folder runId := by
  rw [Report.save]
  constructor
  · intro h
    obtain ⟨made, hmade, h⟩ := Except.bind_eq_ok_iff.mp h
    obtain ⟨after, hafter, h⟩ := Except.bind_eq_ok_iff.mp h
    split_ifs at h with hdeep
    obtain rfl := Except.ok.inj h
    exact ⟨Nat.not_lt.mp hdeep, made, hmade, hafter, rfl⟩
  · rintro ⟨hshallow, made, hmade, hafter, hpath⟩
    refine Except.bind_eq_ok_iff.mpr ⟨made, hmade, Except.bind_eq_ok_iff.mpr ⟨_, hafter, ?_⟩⟩
    rw [if_neg (Nat.not_lt.mpr hshallow), ← hpath]
    rfl

/-! ### Whole runs -/

/-- The run over the packages of a manifest never fails. -/
private theorem exists_execute (out : Sink) (d : Disk) (manifest : Manifest) (manifestPath : String)
    (strict continueOnError : Bool) :
    ∃ report status, (execute out d manifest manifestPath strict continueOnError).result =
      .ok (report, status) ∧ report.get? "status" = some (.str status.text) ∧
        (Json.obj report).nesting ≤ 5 := by
  obtain ⟨parts, hparts⟩ := exists_parts out d manifestPath strict
    (manifest.packages.filter Manifest.Package.enabled)
  obtain ⟨status, hends, -⟩ := reports_reported hparts continueOnError
  have hshallow : ∀ part ∈ parts, (Json.obj part.report).nesting ≤ 3 :=
    ((List.forall₂_and_left _ _).mp (hparts.flip.imp fun _ _ h => ⟨h.nesting, h⟩)).1
  refine ⟨_, status, hends.result, ?_, nesting_of_ends hends hends.result fun part hpart =>
    hshallow part ((reported_isPrefix continueOnError parts).subset hpart)⟩
  simp [Json.Fields.get?_cons]

variable (out : Sink) {d : Disk} {s : Settings} (runId time : String)

/-- A manifest that does not load ends the run before it does anything. -/
theorem run_of_error {failure : Failure} (h : Manifest.load d s.manifest = .error failure) :
    printed (run out d s runId time).trace = "" ∧
      (Escapes failure → (run out d s runId time).result = .error failure) ∧
      (¬Escapes failure → (run out d s runId time).result = .ok ⟨2, d, none⟩) := by
  have hinvalid := isInvalid_eq_false_iff (Manifest.unloadable_of_load h)
  unfold run
  rw [h]
  dsimp only
  cases hcase : isInvalid failure with
  | true =>
    rw [if_pos rfl]
    refine ⟨by simp [Outcome.log, Outcome.andThen, Outcome.ok, printed], fun hescapes => ?_,
      fun _ => rfl⟩
    rw [hinvalid.mpr hescapes] at hcase
    cases hcase
  | false =>
    rw [if_neg Bool.false_ne_true]
    exact ⟨by simp [Outcome.fail, printed], fun _ => rfl,
      fun hescapes => absurd (hinvalid.mp hcase) hescapes⟩

/-- A run whose manifest loads comes down to saving its report. -/
private theorem run_eq_ok_iff {manifest : Manifest}
    (h : Manifest.load d s.manifest = .ok manifest) :
    ∃ report : Json.Fields, ∃ status : Report.Status,
      report.get? "status" = some (.str status.text) ∧ (Json.obj report).nesting ≤ 5 ∧
      ∀ result, (run out d s runId time).result = .ok result ↔
        ∃ saved, Report.save d report runId time (s.folder manifest) = .ok saved ∧
          result = ⟨if status = .failed then 1 else 0, saved.1, some saved.2⟩ := by
  obtain ⟨report, status, hexecute, hstatus, hnesting⟩ :=
    exists_execute out d manifest s.manifest s.strict s.continueOnError
  refine ⟨report, status, hstatus, hnesting, fun result => ?_⟩
  unfold run
  simp only [h, Outcome.bind_eq, Outcome.pure_eq, Outcome.result_andThen_eq_ok_iff, hexecute,
    Outcome.result_ofExcept, Outcome.result_log, Except.mapError_eq_ok_iff, Except.ok.injEq,
    Outcome.result_ok]
  constructor
  · rintro ⟨_, rfl, saved, hsaved, _, -, rfl⟩
    exact ⟨saved, hsaved, rfl⟩
  · rintro ⟨saved, hsaved, rfl⟩
    exact ⟨_, rfl, saved, hsaved, (), trivial, rfl⟩

/-- A run whose manifest loads ends with a code when its report can be written. -/
theorem run_of_ok {manifest : Manifest} (h : Manifest.load d s.manifest = .ok manifest) :
    ((∃ result, (run out d s runId time).result = .ok result) ↔
      Writable d (s.folder manifest) runId) ∧
    ∀ result, (run out d s runId time).result = .ok result →
      ∃ status, Wrote d (s.folder manifest) runId status result ∧
        result.code = if status = .failed then 1 else 0 := by
  obtain ⟨report, status, hstatus, hnesting, hrun⟩ := run_eq_ok_iff out runId time h
  have hshallow : (Json.obj (Report.stamp report runId time)).nesting ≤ d.limits.writing :=
    nesting_stamp_le (hnesting.trans d.limits.five_le_writing) runId time
  refine ⟨?_, fun result hresult => ?_⟩
  · simp only [hrun]
    constructor
    · rintro ⟨_, saved, hsaved, -⟩
      obtain ⟨-, made, hmade, hafter, -⟩ := save_eq_ok_iff.mp hsaved
      exact ⟨made, hmade, exists_write hafter⟩
    · rintro ⟨made, hmade, hwrite⟩
      obtain ⟨after, hafter⟩ := hwrite { bytes := Utf8.encode (Report.text report runId time) }
      exact ⟨_, (after, _), save_eq_ok_iff.mpr ⟨hshallow, made, hmade, hafter, rfl⟩, rfl⟩
  · obtain ⟨⟨after, path⟩, hsaved, rfl⟩ := (hrun result).mp hresult
    obtain ⟨-, made, hmade, hafter, hpath⟩ := save_eq_ok_iff.mp hsaved
    refine ⟨status, ⟨congrArg some hpath, made, Report.stamp report runId time, hmade, hafter, ?_⟩,
      rfl⟩
    rw [get?_status_stamp, hstatus]

/-- How a run ends. A manifest that does not load ends it with code 2 and nothing printed or
written, or with the failure if that escapes; then nothing is printed or written either. Otherwise
the run ends with a code exactly when its report can be written, and the code is 1 if the report
says that the run failed and 0 if it does not. -/
structure Exits (out : Sink) (d : Disk) (s : Settings) (runId time : String) : Prop where
  unloaded : ∀ failure, Manifest.load d s.manifest = .error failure →
    printed (run out d s runId time).trace = "" ∧
      (Escapes failure → (run out d s runId time).result = .error failure) ∧
      (¬Escapes failure → (run out d s runId time).result = .ok ⟨2, d, none⟩)
  loaded : ∀ manifest, Manifest.load d s.manifest = .ok manifest →
    ((∃ result, (run out d s runId time).result = .ok result) ↔
      Writable d (s.folder manifest) runId) ∧
      ∀ result, (run out d s runId time).result = .ok result →
        ∃ status, Wrote d (s.folder manifest) runId status result ∧
          result.code = if status = .failed then 1 else 0

/-- Arguments that name a manifest are refused only where no text is given for the log level or the
manifest. -/
private theorem textless_of_ofArguments {flag : Option String} {args : List String}
    {refusal : Arguments.Refusal} (h : Settings.ofArguments flag args = .error refusal) :
    refusal.Early ∨ refusal = .noLevel ∧ Arguments.Textless spec args "--log-level" ∨
      refusal = .noManifest ∧ Arguments.Textless spec args "--manifest-path" := by
  rw [Settings.ofArguments] at h
  rcases Except.bind_eq_error_iff.mp h with h | ⟨requests, hrequests, h⟩
  · exact .inl (Arguments.early_of_parse h)
  · split at h
    · -- no manifest is named
      exact .inl (.inl (Except.error.inj h).symm)
    · next given hgiven =>
      rcases Except.bind_eq_error_iff.mp h with h | ⟨level, -, h⟩
      · obtain ⟨hrefusal, hlevel⟩ := Arguments.logLevel_eq_error_iff.mp h
        exact .inr (.inl ⟨hrefusal, requests, hrequests, hlevel⟩)
      · cases given with
        | none => exact .inr (.inr ⟨(Except.error.inj h).symm, requests, hrequests, hgiven⟩)
        | some manifest => cases h

/-- **How a run ends**, whatever the arguments are, if they are followed, and whatever the sink
refuses. Arguments are not followed that are refused as they are taken apart, and otherwise only
those that give no text for the log level or for the manifest. -/
theorem run_ends (out : Sink) (d : Disk) (flag : Option String) (args : List String)
    (runId time : String) :
    match Settings.ofArguments flag args with
    | .ok s => Exits out d s runId time
    | .error refusal =>
      refusal.Early ∨ refusal = .noLevel ∧ Arguments.Textless spec args "--log-level" ∨
        refusal = .noManifest ∧ Arguments.Textless spec args "--manifest-path" := by
  cases h : Settings.ofArguments flag args with
  | ok s => exact ⟨fun _ => run_of_error out runId time, fun _ => run_of_ok out runId time⟩
  | error refusal => exact textless_of_ofArguments h

end WorkspaceRun

end ApiOutline
