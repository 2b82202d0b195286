import ApiOutline.Proofs.Module.Listing
import ApiOutline.Proofs.Module.Plain
import ApiOutline.Proofs.Sink

/-!
# What a listing prints

The listing of a module is printed in one of two forms, and `Shows` says what the whole of it is:
the line of every documented entry with those of what it owns, in text after a head with the path,
and in JSON within one document. A listing that comes to its end has printed the whole
(`shows_of_print`). One that fails on the way may have printed a beginning in text, but nothing in
JSON (`silent_printJson`).
-/

namespace ApiOutline

namespace ModuleEntry

variable (d : Disk) (e : ModuleEntry)

/-- The lines of a module. -/
def shownLines : List Listing.Line :=
  e.module.documented.map (Entry.shownLine e.module.source)

/-- The whole listing of a module under a label, in JSON or in text. -/
inductive Shows (label : String) : Bool → String → Prop
  | text : Shows label false
      (label ++ ": " ++ e.module.path ++ "\n" ++ String.join (e.shownLines.map Listing.Line.text))
  | json {name : String} {outputs : List String} (hname : e.name d = .ok name)
      (houtputs : e.outputs.mapM (fun path => d.relative path e.root) = .ok outputs) :
      Shows label true
        ((Listing.mk name ("module " ++ name) e.module.path outputs e.shownLines).toJson.write
          Listing.style ++ "\n")

variable {d e}

theorem eq_shownLines {emit : Listing.Line → Outcome Failure Unit}
    (hemit : ∀ line, (emit line).result = .ok ()) {lines : List Listing.Line}
    (h : (e.lines emit).result = .ok lines) : lines = e.shownLines :=
  (reads_lines e hemit).eq_of_ok h

/-- Of lines that all come to be known is printed what is printed of each. -/
private theorem printed_linesOf {emit : Listing.Line → Outcome Failure Unit} {entries : List Entry}
    {lines : List Listing.Line} (h : (e.linesOf emit entries).result = .ok lines) :
    printed (e.linesOf emit entries).trace =
      String.join (lines.map fun line => printed (emit line).trace) := by
  induction entries generalizing lines with
  | nil =>
    obtain rfl := Except.ok.inj h
    exact Outcome.Silent.ok []
  | cons entry rest ih =>
    obtain ⟨line, hline, h⟩ := Outcome.result_andThen_eq_ok_iff.mp h
    obtain ⟨⟨⟩, hemit, h⟩ := Outcome.result_andThen_eq_ok_iff.mp h
    obtain ⟨others, hothers, h⟩ := Outcome.result_andThen_eq_ok_iff.mp h
    obtain rfl := Except.ok.inj h
    have hsilent : printed (e.line entry).trace = "" := (e.plain_line entry).silent
    simp only [linesOf, Outcome.bind_eq, Outcome.pure_eq, Outcome.printed_andThen_of_ok hline,
      Outcome.printed_andThen_of_ok hemit, Outcome.printed_andThen_of_ok hothers,
      Outcome.printed_ok, hsilent, ih hothers, List.map_cons, String.join_cons,
      String.empty_append, String.append_empty]

private theorem join_texts (line : Listing.Line) : String.join line.texts = line.text := by
  rw [Listing.Line.texts, String.join_cons, Listing.Line.text]

/-- The lines that are printed are those of the module. -/
private theorem printed_lines {lines : List Listing.Line}
    (h : (e.lines fun line => .printEach line.texts).result = .ok lines) :
    printed (e.lines fun line => .printEach line.texts).trace =
      String.join (e.shownLines.map Listing.Line.text) := by
  rw [← eq_shownLines (fun _ => rfl) h]
  obtain ⟨entries, hentries, hlines⟩ := Outcome.result_andThen_eq_ok_iff.mp h
  have hsilent : printed e.entries.trace = "" := e.plain_entries.silent
  rw [ModuleEntry.lines, Outcome.bind_eq, Outcome.printed_andThen_of_ok hentries, hsilent,
    printed_linesOf hlines, String.empty_append]
  simp only [Outcome.printed_printEach, join_texts]

theorem shows_of_printText {label : String} {stats : Stats}
    (h : (e.printText label).result = .ok stats) :
    e.Shows d label false (printed (e.printText label).trace) := by
  obtain ⟨⟨⟩, hhead, h⟩ := Outcome.result_andThen_eq_ok_iff.mp h
  obtain ⟨lines, hlines, h⟩ := Outcome.result_andThen_eq_ok_iff.mp h
  simp only [printText, Outcome.bind_eq, Outcome.pure_eq, Outcome.printed_andThen_of_ok hhead,
    Outcome.printed_andThen_of_ok hlines, Outcome.printed_print, printed_lines hlines,
    Outcome.printed_ok, String.append_empty]
  exact .text

/-- What describes a module is put together from its name, its outputs and its lines. -/
private theorem exists_of_describe {listing : Listing} {stats : Stats}
    (h : (e.describe d).result = .ok (listing, stats)) :
    ∃ name outputs, e.name d = .ok name ∧
      e.outputs.mapM (fun path => d.relative path e.root) = .ok outputs ∧
      listing = ⟨name, "module " ++ name, e.module.path, outputs, e.shownLines⟩ := by
  obtain ⟨name, hname, h⟩ := Outcome.result_andThen_eq_ok_iff.mp h
  obtain ⟨title, htitle, h⟩ := Outcome.result_andThen_eq_ok_iff.mp h
  obtain ⟨outputs, houtputs, h⟩ := Outcome.result_andThen_eq_ok_iff.mp h
  obtain ⟨lines, hlines, h⟩ := Outcome.result_andThen_eq_ok_iff.mp h
  obtain ⟨rfl, -⟩ := Prod.mk.inj (Except.ok.inj h)
  replace hname := Except.mapError_eq_ok_iff.mp hname
  obtain ⟨name', hname', rfl⟩ := Except.map_eq_ok_iff.mp (Except.mapError_eq_ok_iff.mp htitle)
  obtain rfl := Except.ok.inj (hname.symm.trans hname')
  refine ⟨name, outputs, hname, Except.mapError_eq_ok_iff.mp houtputs, ?_⟩
  rw [eq_shownLines (fun _ => rfl) hlines]

/-- A module that is described is printed as its description. -/
theorem printJson_of_describe {listing : Listing} {stats : Stats}
    (h : (e.describe d).result = .ok (listing, stats)) : (e.printJson d).result = .ok stats ∧
      printed (e.printJson d).trace = listing.toJson.write Listing.style ++ "\n" := by
  have hsilent : printed (e.describe d).trace = "" := (e.plain_describe d).silent
  refine ⟨Outcome.result_andThen_eq_ok_iff.mpr ⟨_, h,
    Outcome.result_andThen_eq_ok_iff.mpr ⟨(), rfl, rfl⟩⟩, ?_⟩
  simp only [printJson, Outcome.bind_eq, Outcome.pure_eq, Outcome.printed_andThen_of_ok h,
    hsilent, Outcome.printed_andThen_of_ok (Outcome.result_print _), Outcome.printed_print,
    Outcome.printed_ok, String.empty_append, String.append_empty]

private theorem shows_of_printJson {label : String} {stats : Stats}
    (h : (e.printJson d).result = .ok stats) :
    e.Shows d label true (printed (e.printJson d).trace) := by
  obtain ⟨⟨listing, counted⟩, hdescribe, -⟩ := Outcome.result_andThen_eq_ok_iff.mp h
  rw [(printJson_of_describe hdescribe).2]
  obtain ⟨name, outputs, hname, houtputs, rfl⟩ := exists_of_describe hdescribe
  exact .json hname houtputs

/-- **A listing that comes to its end** has printed the whole listing. -/
theorem shows_of_print {asJson : Bool} {label : String} {stats : Stats}
    (h : (e.print d asJson label).result = .ok stats) :
    e.Shows d label asJson (printed (e.print d asJson label).trace) := by
  cases asJson with
  | false => exact shows_of_printText h
  | true => exact shows_of_printJson h

/-- **A JSON document that fails** prints nothing. -/
theorem silent_printJson {failure : Failure} (h : (e.printJson d).result = .error failure) :
    (e.printJson d).Silent := by
  have hsilent : printed (e.describe d).trace = "" := (e.plain_describe d).silent
  rw [printJson, Outcome.bind_eq, Outcome.result_andThen] at h
  rcases Except.bind_eq_error_iff.mp h with hdescribe | ⟨described, -, h⟩
  · rw [Outcome.Silent, printJson, Outcome.bind_eq, Outcome.printed_andThen_of_error hdescribe,
      hsilent]
  · cases h

/-- The document is printed at once, after the module is described. -/
private theorem exists_trace_printJson (d : Disk) (e : ModuleEntry) : ∃ events : List Event,
    (e.printJson d).trace = (e.describe d).trace ++ events ∧ events.length ≤ 1 := by
  rw [printJson, Outcome.bind_eq]
  cases hdescribe : (e.describe d).result with
  | error failure =>
    rw [Outcome.andThen_of_error hdescribe]
    exact ⟨[], (List.append_nil _).symm, Nat.zero_le _⟩
  | ok described =>
    rw [Outcome.andThen_of_ok hdescribe]
    exact ⟨[.print (described.1.toJson.write Listing.style ++ "\n")], rfl, Nat.le_refl 1⟩

/-- **And behind a sink** a JSON document is printed as a whole or not at all. -/
theorem silent_through_printJson {out : Sink} {failure : Failure}
    (h : ((e.printJson d).through out).result = .error failure) :
    ((e.printJson d).through out).Silent := by
  rcases Outcome.through_cases out (e.printJson d) with
    ⟨-, heq⟩ | ⟨before, text, after, complaint, htrace, -, heq⟩
  · rw [heq] at h ⊢
    exact silent_printJson h
  · -- what comes before the document is the trace of the description, or its beginning
    obtain ⟨events, hevents, hone⟩ := exists_trace_printJson d e
    rw [hevents] at htrace
    have hlength : before.length ≤ (e.describe d).trace.length := by
      have hlength := congrArg List.length htrace
      rw [List.length_append, List.length_append, List.length_cons] at hlength
      omega
    have hbefore : before <+: (e.describe d).trace ++ events := by
      rw [htrace]
      exact List.prefix_append _ _
    have hprefix : before <+: (e.describe d).trace :=
      List.prefix_of_prefix_length_le hbefore (List.prefix_append _ _) hlength
    have hsilent : printed (e.describe d).trace = "" := (e.plain_describe d).silent
    rw [heq]
    exact printed_eq_empty_of_isPrefix hprefix hsilent

end ModuleEntry

end ApiOutline
