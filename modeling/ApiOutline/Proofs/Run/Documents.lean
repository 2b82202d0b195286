import ApiOutline.Proofs.Disk.Places
import ApiOutline.Proofs.Disk.Writing
import ApiOutline.Proofs.Json.Ascii
import ApiOutline.Proofs.Module.Counting
import ApiOutline.Proofs.Run.Ending

/-!
# Documents are read as they were written

Two documents leave the program: the report of a run, in a file and escaped, and the listing of a
module, printed and not escaped. Each is read as what it was written from. For a report that is the
report with the identity and the time of the run (`Report.Stamped`), up to the order of fields,
which the file has sorted; for a listing it is the listing itself.

Escapes leave one text in doubt: two halves of a surrogate pair that stand side by side as lone
surrogates are written as the pair is, and are read as the one character (`not_documents_reread`).
`Json.readBack` says what becomes of a report that holds such a text, and `Text.IsUnpaired` which
texts are without them.
-/

namespace ApiOutline

namespace Text

/-- A text of characters and lone surrogates, as all texts are but those with a mark that has no
meaning. -/
def IsSound (s : String) : Prop :=
  ∀ a ∈ symbols s, a.isSound = true

/-- Nowhere in a text do the halves of a surrogate pair stand side by side as lone surrogates. -/
def IsUnpaired (s : String) : Prop :=
  ∀ high low, Json.isHighHalf high = true → Json.isLowHalf low = true →
    ¬[.lone high, .lone low] <:+: symbols s

private theorem isSound_of_ascii {s : String} (h : s.toList.all (·.toNat < 0x80) = true) :
    IsSound s := by
  intro a ha
  rw [Disk.symbols_of_ascii (List.all_iff_forall_prop.mp h)] at ha
  obtain ⟨c, -, rfl⟩ := List.mem_map.mp ha
  rfl

private theorem isSound_ofSymbols {as : List Symbol} (h : ∀ a ∈ as, a.isSound = true) :
    IsSound (ofSymbols as) := by
  rwa [IsSound, symbols_ofSymbols h]

/-- A text without lone surrogates has no two side by side. -/
private theorem Whole.isUnpaired {s : String} (h : Whole s) : IsUnpaired s := by
  intro high low _ _ hpair
  cases h _ (hpair.subset List.mem_cons_self)

end Text

namespace Json

private theorem Style.writes_of_isSound (style : Style) {s : String} (h : Text.IsSound s) :
    style.Writes s :=
  fun _ hstray => absurd (h _ hstray) (by decide)

private theorem Style.reread_eq_self (style : Style) {s : String} (h : Text.IsUnpaired s) :
    style.reread s = s := by
  rw [Style.reread]
  split_ifs
  · rw [joined_eq_self h, Text.ofSymbols_symbols]
  · rfl

end Json

/-! ### Reports -/

namespace Report

/-- A report with the identity and the time of its run, each where and only where the report lacks
it. -/
structure Stamped (report : Json.Fields) (runId time : String) (fields : Json.Fields) : Prop where
  distinct : fields.Distinct
  get? : ∀ name, fields.get? name = (report.get? name).or
    (if name = "run_id" then some (.str runId)
      else if name = "timestamp_utc" then some (.str time) else none)

/-- A field that is there or added. -/
private theorem get?_withDefault (fields : Json.Fields) (name value other : String) :
    (withDefault fields name value).get? other =
      (fields.get? other).or (if other = name then some (.str value) else none) := by
  rw [withDefault]
  split_ifs with hthere hother hother
  · obtain ⟨v, hv⟩ := Option.isSome_iff_exists.mp hthere
    rw [hother, hv]
    rfl
  · rw [Option.or_none]
  · have hnone := Option.not_isSome_iff_eq_none.mp hthere
    rw [Json.Fields.get?_put, if_pos hother, hother, hnone]
    rfl
  · rw [Json.Fields.get?_put, if_neg hother, Option.or_none]

private theorem stamped_stamp {report : Json.Fields} (h : report.Distinct) (runId time : String) :
    Stamped report runId time (stamp report runId time) where
  distinct := by
    have hdefault : ∀ {fields : Json.Fields} (name value : String), fields.Distinct →
        (withDefault fields name value).Distinct := by
      intro fields name value h
      rw [withDefault]
      split_ifs
      · exact h
      · exact h.put name _
    exact hdefault _ _ (hdefault _ _ h)
  get? name := by
    rw [stamp, get?_withDefault, get?_withDefault, Option.or_assoc]
    split_ifs <;> rfl

/-- What is added to a report can be stored, and lies no deeper. -/
private theorem storable_withDefault {ok : String → Prop} {fields : Json.Fields}
    (h : Json.Storable ok (.obj fields)) {name value : String} (hname : ok name)
    (hvalue : ok value) : Json.Storable ok (.obj (withDefault fields name value)) := by
  rw [withDefault]
  split_ifs
  · exact h
  · cases h with
    | obj hdistinct hnames hvalues =>
      refine .obj (hdistinct.put name _) (fun field hfield => ?_) fun field hfield => ?_
      · rcases Json.Fields.mem_put hfield with rfl | hfield
        · exact hname
        · exact hnames field hfield
      · rcases Json.Fields.mem_put hfield with rfl | hfield
        · exact .str hvalue
        · exact hvalues field hfield

private theorem storable_stamp {ok : String → Prop} {report : Json.Fields}
    (h : Json.Storable ok (.obj report)) (hid : ok "run_id") (htime : ok "timestamp_utc")
    {runId time : String} (hrunId : ok runId) (hnow : ok time) :
    Json.Storable ok (.obj (stamp report runId time)) :=
  storable_withDefault (storable_withDefault h hid hrunId) htime hnow

/-- The file of a report, when it was saved, holds the text of the report. -/
private theorem exists_file_of_save {d after : Disk} {report : Json.Fields}
    {runId time folder path : String}
    (hstorable : Json.Storable style.Writes (.obj (stamp report runId time)))
    (h : save d report runId time folder = .ok (after, path)) :
    path = pathIn folder runId ∧ ∃ file, after.read path = .ok file ∧
      file.text = .ok (text report runId time) := by
  obtain ⟨-, made, -, hwrite, rfl⟩ := WorkspaceRun.save_eq_ok_iff.mp h
  exact ⟨rfl, _, Disk.read_of_write hwrite, text_encode (hstorable.plain rfl 0) rfl⟩

/-- At a path stands a file with a report and with the identity and the time of its run. It is read
in all room that the report takes, as the same object up to the order of fields if no text is in
doubt. -/
def StandsAt (d : Disk) (path : String) (report : Json.Fields) (runId time : String) : Prop :=
  ∃ file text fields, d.read path = .ok file ∧ file.text = .ok text ∧
    Stamped report runId time fields ∧
    (∀ room, (Json.obj report).nesting ≤ room →
      Json.readWithin room text = .ok ((Json.obj fields).readBack style)) ∧
    (Json.Storable Text.IsUnpaired (.obj report) → Text.IsUnpaired runId → Text.IsUnpaired time →
      (Json.obj fields).Same ((Json.obj fields).readBack style))

/-- **A report is read as it was written.** -/
theorem standsAt_of_save {d after : Disk} {report : Json.Fields} {runId time folder path : String}
    (hreport : Json.Storable Text.IsSound (.obj report)) (hid : Text.IsSound runId)
    (htime : Text.IsSound time) (h : save d report runId time folder = .ok (after, path)) :
    path = Path.join folder (runId ++ ".json") ∧ StandsAt after path report runId time := by
  have hidName : ("run_id".toList.all (·.toNat < 0x80)) = true := by decide
  have htimeName : ("timestamp_utc".toList.all (·.toNat < 0x80)) = true := by decide
  have hstorable : Json.Storable style.Writes (.obj (stamp report runId time)) :=
    (storable_stamp hreport (Text.isSound_of_ascii hidName) (Text.isSound_of_ascii htimeName) hid
      htime).mono fun _ => style.writes_of_isSound
  have hdistinct : report.Distinct := by
    cases hreport with
    | obj hdistinct _ _ => exact hdistinct
  obtain ⟨hpath, file, hread, htext⟩ := exists_file_of_save hstorable h
  refine ⟨hpath, file, _, _, hread, htext, stamped_stamp hdistinct runId time, ?_, ?_⟩
  · intro room hroom
    have hwritten := hstorable.readWithin_write
      (WorkspaceRun.nesting_stamp_le hroom runId time) "" nofun
    rwa [String.append_empty] at hwritten
  · intro hreport hid htime
    exact ((storable_stamp hreport (Text.whole_of_ascii hidName).isUnpaired
      (Text.whole_of_ascii htimeName).isUnpaired hid htime).mono
        fun _ => style.reread_eq_self).same_readBack

end Report

/-! ### Listings -/

namespace Listing

private theorem storable_texts {ok : String → Prop} {texts : List String} (h : ∀ s ∈ texts, ok s) :
    Json.Storable ok (.arr (texts.map .str)) := by
  refine .arr fun item hitem => ?_
  obtain ⟨s, hs, rfl⟩ := List.mem_map.mp hitem
  exact .str (h s hs)

private theorem storable_toJson (l : Listing) : Json.Storable (fun _ => True) l.toJson := by
  have hline : ∀ line : Line, Json.Storable (fun _ => True) line.toJson := by
    intro line
    refine .obj (by simp [Json.Fields.Distinct]) (fun _ _ => trivial) ?_
    simp only [List.forall_mem_cons]
    exact ⟨.str trivial, storable_texts fun _ _ => trivial, List.forall_mem_nil _⟩
  refine .obj (by simp [Json.Fields.Distinct]) (fun _ _ => trivial) ?_
  simp only [List.forall_mem_cons]
  refine ⟨.str trivial, .str trivial, .str trivial, storable_texts fun _ _ => trivial,
    .arr fun item hitem => ?_, List.forall_mem_nil _⟩
  obtain ⟨line, -, rfl⟩ := List.mem_map.mp hitem
  exact hline line

/-- A listing is an object with a list of objects, each with a list. -/
private theorem nesting_toJson_le (l : Listing) : l.toJson.nesting ≤ 4 := by
  have htexts : ∀ (n : Nat) (texts : List String),
      Json.nesting (.arr (texts.map .str)) ≤ n + 1 := by
    intro n texts
    refine Nat.succ_le_succ (Json.nestingOfItems_le_iff.mpr fun item hitem => ?_)
    obtain ⟨s, -, rfl⟩ := List.mem_map.mp hitem
    exact Nat.zero_le n
  have hline : ∀ line : Line, line.toJson.nesting ≤ 2 := by
    intro line
    refine Nat.succ_le_succ (Json.nestingOfFields_le_iff.mpr ?_)
    simp only [List.forall_mem_cons]
    exact ⟨Nat.zero_le 1, htexts 0 _, List.forall_mem_nil _⟩
  refine Nat.succ_le_succ (Json.nestingOfFields_le_iff.mpr ?_)
  simp only [List.forall_mem_cons]
  refine ⟨Nat.zero_le 3, Nat.zero_le 3, Nat.zero_le 3, htexts 2 _, ?_, List.forall_mem_nil _⟩
  refine Nat.succ_le_succ (Json.nestingOfItems_le_iff.mpr fun item hitem => ?_)
  obtain ⟨line, -, rfl⟩ := List.mem_map.mp hitem
  exact hline line

/-- **A listing is read as it was printed.** -/
theorem readWithin_write (l : Listing) {room : Nat} (hroom : 4 ≤ room) :
    Json.readWithin room (l.toJson.write style ++ "\n") = .ok l.toJson := by
  have hwrites : Json.Storable style.Writes l.toJson :=
    l.storable_toJson.mono fun _ _ hascii => absurd hascii (by decide)
  have hreread : Json.Storable (fun s => style.reread s = s) l.toJson :=
    l.storable_toJson.mono fun _ _ => rfl
  have hbreak : ∀ c ∈ "\n".toList, Json.isSpace c = true := List.all_eq_true.mp (by decide)
  rw [hwrites.readWithin_write (l.nesting_toJson_le.trans hroom) "\n" hbreak,
    hreread.readBack_eq rfl]

end Listing

namespace ModuleEntry

private theorem readWithin_printed {d : Disk} {e : ModuleEntry} {listing : Listing} {stats : Stats}
    (h : (e.describe d).result = .ok (listing, stats)) (label : String) {room : Nat}
    (hroom : 4 ≤ room) : (e.print d true label).result = .ok stats ∧
      Json.readWithin room (printed (e.print d true label).trace) = .ok listing.toJson := by
  obtain ⟨hresult, hprinted⟩ := printJson_of_describe h
  refine ⟨hresult, ?_⟩
  change Json.readWithin room (printed (e.printJson d).trace) = _
  rw [hprinted]
  exact listing.readWithin_write hroom

end ModuleEntry

/-! ### Both documents -/

/-- **Reading undoes writing**, for both documents. Whatever a report holds, it is saved where its
file can be written and there is room for its depth, at the path that goes by the run; a saved
report stands there, with what it lacked of the identity and the time of its run. A module with
paths whose texts decode is described, and what is printed of a module as a document is read as its
description. -/
theorem documents_reread (d : Disk) {report : Json.Fields} {runId time : String}
    (hreport : Json.Storable Text.IsSound (.obj report)) (hid : Text.IsSound runId)
    (htime : Text.IsSound time) {e : ModuleEntry}
    (hdecodes : ∀ n ∈ e.module.shownNodes, n.Decodes e.module.source) :
    (∀ folder, (WorkspaceRun.Writable d folder runId →
        (Json.obj report).nesting ≤ d.limits.writing →
          ∃ saved, Report.save d report runId time folder = .ok saved) ∧
      ∀ {after path}, Report.save d report runId time folder = .ok (after, path) →
        path = Path.join folder (runId ++ ".json") ∧
          Report.StandsAt after path report runId time) ∧
    (e.HasPaths → ∃ described, (e.describe d).result = .ok described) ∧
    ∀ {listing stats}, (e.describe d).result = .ok (listing, stats) →
      ∀ label, (e.print d true label).result = .ok stats ∧
        ∀ room, 4 ≤ room →
          Json.readWithin room (printed (e.print d true label).trace) = .ok listing.toJson := by
  refine ⟨fun folder => ⟨?_, Report.standsAt_of_save hreport hid htime⟩, fun hpaths => ?_, ?_⟩
  · rintro ⟨made, hmade, hwrite⟩ hnesting
    obtain ⟨after, hafter⟩ := hwrite { bytes := Utf8.encode (Report.text report runId time) }
    exact ⟨(after, _), WorkspaceRun.save_eq_ok_iff.mpr
      ⟨WorkspaceRun.nesting_stamp_le hnesting runId time, made, hmade, hafter, rfl⟩⟩
  · exact (ModuleEntry.exists_describe_iff d e).mpr ⟨hpaths, hdecodes⟩
  · intro listing stats hdescribed label
    refine ⟨(ModuleEntry.readWithin_printed hdescribed label le_rfl).1, fun room hroom => ?_⟩
    exact (ModuleEntry.readWithin_printed hdescribed label hroom).2

/-- A report with a character beyond the first plane, a quote and a line break, empty containers,
fields out of order, and a time of its own. -/
def mixedReport : Json.Fields :=
  [("status", .str "😀\"\n"), ("items", .arr [.int (-12), .obj [], .arr []]),
    ("timestamp_utc", .null)]

private theorem storable_mixedReport {ok : String → Prop}
    (h : ∀ s ∈ ["status", "items", "timestamp_utc", "😀\"\n"], ok s) :
    Json.Storable ok (.obj mixedReport) := by
  simp only [List.forall_mem_cons] at h
  obtain ⟨hstatus, hitems, htimestamp, hvalue, -⟩ := h
  have hdistinct : Json.Fields.Distinct mixedReport := by
    rw [Json.Fields.Distinct]
    decide +kernel
  refine .obj hdistinct ?_ ?_
  · simp only [mixedReport, List.forall_mem_cons]
    exact ⟨hstatus, hitems, htimestamp, List.forall_mem_nil _⟩
  · simp only [mixedReport, List.forall_mem_cons]
    refine ⟨.str hvalue, .arr ?_, .null, List.forall_mem_nil _⟩
    simp only [List.forall_mem_cons]
    exact ⟨.int (by decide), .obj .nil (List.forall_mem_nil _) (List.forall_mem_nil _),
      .arr (List.forall_mem_nil _), List.forall_mem_nil _⟩

theorem documents_reread_mixedReport :
    Json.Storable Text.IsSound (.obj mixedReport) ∧
    (∃ after file text fields v,
      Report.save ⟨[], "/", .uniform 8⟩ mixedReport "r1" "now" "out" = .ok (after, "out/r1.json") ∧
      after.read "out/r1.json" = .ok file ∧ file.text = .ok text ∧
      Report.Stamped mixedReport "r1" "now" fields ∧ Json.readWithin 3 text = .ok v ∧
      (Json.obj fields).Same v) ∧
    ∃ listing stats, (ModuleEntry.describe ⟨[], "/", .uniform 8⟩
        ⟨"/p", ModuleEntry.strayMark, []⟩).result = .ok (listing, stats) ∧
      Json.readWithin 4 (printed (ModuleEntry.print ⟨[], "/", .uniform 8⟩
        ⟨"/p", ModuleEntry.strayMark, []⟩ true "Main module").trace) = .ok listing.toJson := by
  have htexts : ∀ s ∈ ["status", "items", "timestamp_utc", "😀\"\n"],
      Text.IsSound s ∧ Text.Whole s := by
    simp only [Text.IsSound, Text.Whole]
    decide +kernel
  have hreport := storable_mixedReport fun s hs => (htexts s hs).1
  have hunpaired := storable_mixedReport fun s hs => (htexts s hs).2.isUnpaired
  have hid : ("r1".toList.all (·.toNat < 0x80)) = true := by decide
  have hnow : ("now".toList.all (·.toNat < 0x80)) = true := by decide
  have hdecodes : ∀ n ∈ ModuleEntry.strayMark.shownNodes,
      n.Decodes ModuleEntry.strayMark.source := fun n _ =>
    Node.decodes_of_ascii (by decide +kernel) n
  have hreread := @documents_reread ⟨[], "/", .uniform 8⟩ mixedReport "r1" "now" hreport
    (Text.isSound_of_ascii hid) (Text.isSound_of_ascii hnow) ⟨"/p", ModuleEntry.strayMark, []⟩
    hdecodes
  obtain ⟨hsave, hdescribes, hprints⟩ := hreread
  refine ⟨hreport, ?_, ?_⟩
  · obtain ⟨⟨after, path⟩, hsaved⟩ : ∃ saved,
        Report.save ⟨[], "/", .uniform 8⟩ mixedReport "r1" "now" "out" = .ok saved :=
      Except.exists_eq_ok_of_toBool (by decide +kernel)
    obtain ⟨hpath, file, text, fields, hfile, htext, hstamped, hread, hsame⟩ :=
      (hsave "out").2 hsaved
    have hjoin : Path.join "out" ("r1" ++ ".json") = "out/r1.json" := by decide +kernel
    rw [hjoin] at hpath
    rw [hpath] at hfile hsaved
    exact ⟨after, file, text, fields, _, hsaved, hfile, htext, hstamped, hread 3 (by decide),
      hsame hunpaired (Text.whole_of_ascii hid).isUnpaired
        (Text.whole_of_ascii hnow).isUnpaired⟩
  · obtain ⟨⟨listing, stats⟩, hdescribed⟩ := hdescribes ⟨by decide, List.forall_mem_nil _⟩
    exact ⟨listing, stats, hdescribed, (hprints hdescribed "Main module").2 4 le_rfl⟩

/-- Two halves of a surrogate pair side by side. -/
def halves : String :=
  Text.ofSymbols [.lone 0xD83D, .lone 0xDE00]

/-- A report with them for a name. -/
def halvesReport : Json.Fields :=
  [("name", .str halves)]

/-- The name that an object says. -/
def nameOf : Json → Option String
  | .obj fields => (Json.Fields.get? fields "name").bind Json.asStr?
  | _ => none

/-- Objects that are the same but for the order of fields say one name. -/
private theorem nameOf_eq {v w : Json} {s t : String} (h : v.Same w) (hs : nameOf v = some s)
    (ht : nameOf w = some t) : s = t := by
  cases h with
  | refl => exact Option.some.inj (hs.symm.trans ht)
  | arr => cases hs
  | obj _ hsame =>
    rw [nameOf] at hs ht
    obtain ⟨value, hvalue, hs⟩ := Option.bind_eq_some_iff.mp hs
    obtain ⟨other, hother, ht⟩ := Option.bind_eq_some_iff.mp ht
    cases hsame hvalue hother with
    | refl => exact Option.some.inj (hs.symm.trans ht)
    | arr => cases hs
    | obj => cases hs

/-- What is read where the report was written has another name. -/
private theorem nameOf_readBack_halvesReport :
    nameOf ((Json.obj (Report.stamp halvesReport "r1" "now")).readBack Report.style) =
      some "😀" := by
  have hsorted : (Report.stamp halvesReport "r1" "now").Pairwise
      fun a b => Text.precedes a.1 b.1 = true := by
    decide +kernel
  have hstyle : Report.style.sorted = true := rfl
  rw [Json.readBack_obj, Json.Style.order, if_pos hstyle, List.mergeSort_of_pairwise hsorted]
  decide +kernel

/-- Reading does not undo writing everywhere. Halves of a surrogate pair side by side are read as
the one character, and a run whose identity holds a slash names a file in a folder that is not
there. -/
theorem not_documents_reread :
    Json.Storable Text.IsSound (.obj halvesReport) ∧
    (∃ after file text v,
      Report.save ⟨[], "/", .uniform 8⟩ halvesReport "r1" "now" "out" = .ok (after, "out/r1.json") ∧
      after.read "out/r1.json" = .ok file ∧ file.text = .ok text ∧ Json.readWithin 3 text = .ok v ∧
      ∀ fields, Report.Stamped halvesReport "r1" "now" fields → ¬(Json.obj fields).Same v) ∧
    Report.save ⟨[], "/", .uniform 8⟩ [] "a/b" "now" "out" =
      .error ⟨.notFound, "out/a/b.json"⟩ := by
  have hreport : Json.Storable Text.IsSound (.obj halvesReport) := by
    refine .obj (List.nodup_singleton _) ?_ ?_
    · exact List.forall_mem_singleton.mpr (Text.isSound_of_ascii (by decide))
    · exact List.forall_mem_singleton.mpr (.str (Text.isSound_ofSymbols (by decide)))
  refine ⟨hreport, ?_, ?_⟩
  · obtain ⟨⟨after, path⟩, hsaved⟩ : ∃ saved,
        Report.save ⟨[], "/", .uniform 8⟩ halvesReport "r1" "now" "out" = .ok saved :=
      Except.exists_eq_ok_of_toBool (by decide +kernel)
    have hstorable := (Report.storable_stamp hreport (Text.isSound_of_ascii (by decide))
      (Text.isSound_of_ascii (by decide)) (Text.isSound_of_ascii (s := "r1") (by decide))
      (Text.isSound_of_ascii (s := "now") (by decide))).mono
        fun _ => Report.style.writes_of_isSound
    obtain ⟨rfl, file, hfile, htext⟩ := Report.exists_file_of_save hstorable hsaved
    have hread := hstorable.readWithin_write (show _ ≤ 3 by decide +kernel) "" nofun
    rw [String.append_empty] at hread
    have hpath : Report.pathIn "out" "r1" = "out/r1.json" := by decide +kernel
    rw [hpath] at hfile hsaved
    refine ⟨after, file, _, _, hsaved, hfile, htext, hread, fun fields hstamped hsame => ?_⟩
    have hgiven : nameOf (.obj fields) = some halves := by
      rw [nameOf, hstamped.get? "name"]
      rfl
    have hhalves : halves ≠ "😀" := by decide +kernel
    exact hhalves (nameOf_eq hsame hgiven nameOf_readBack_halvesReport)
  · refine Except.eq_error_of_exists ?_
    decide +kernel

end ApiOutline
