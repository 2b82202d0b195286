import ApiOutline.Proofs.Module.Printing
import ApiOutline.Run.Workspace
import Mathlib.Algebra.GroupWithZero.Nat

/-!
# Counting while listing

Listings that share their counters count into them as they go: a module as soon as its lines are
asked for, with one more parse error if its tree is damaged, and each line before it is handed on.
`tally` does so, and from it the three forms in which a module is listed are put together once more,
starting from counts that are there already. In each form this adds what the listing alone counts
(`describeInto_eq`, `printTextInto_eq`, `printJsonInto_eq`), also where it fails.

So the forms agree: the text is the description laid out flat, and all of them count the same
(`ListsAlike`). In a row of listings in whatever forms, the counts in the end are the sums
(`listings_agree`).
-/

namespace ApiOutline

/-! ### Damaged trees -/

mutual

private theorem Tree.hasError_iff (parent : Option String) :
    ∀ t : Tree, t.hasError = true ↔ ∃ n ∈ t.preorder parent, n.1.isFault = true
  | .node l cs => by
    rw [preorder, hasError, Bool.or_eq_true, anyError_iff (some l.kind) cs]
    simp [isFault, kind, label]

theorem Tree.anyError_iff (parent : Option String) :
    ∀ ts : List Tree, anyError ts = true ↔ ∃ n ∈ preorderAll parent ts, n.1.isFault = true
  | [] => by simp [anyError, preorderAll]
  | t :: ts => by
    rw [anyError, preorderAll, Bool.or_eq_true, hasError_iff parent t, anyError_iff parent ts]
    simp [or_and_right, exists_or]

end

/-! ### Counts -/

namespace Stats

/-- The lines of a module are asked for. -/
def begin (s : Stats) (m : Module) : Stats :=
  { s with
    modules := s.modules + 1
    parseErrors := s.parseErrors + if m.hasErrors then 1 else 0 }

/-- A line is known. -/
def take (s : Stats) (line : Listing.Line) : Stats :=
  { s with
    entries := s.entries + 1
    members := s.members + line.members.length }

private theorem foldl_take (s : Stats) (lines : List Listing.Line) :
    lines.foldl take s =
      { s with
        entries := s.entries + lines.length
        members := s.members + (lines.flatMap fun line => line.members).length } := by
  induction lines generalizing s with
  | nil => rfl
  | cons line rest ih =>
    rw [List.foldl_cons, ih]
    simp [take, Nat.add_assoc, Nat.add_comm, Nat.add_left_comm]

end Stats

namespace ModuleEntry

variable (d : Disk) (e : ModuleEntry)

private theorem foldl_take_begin (s : Stats) (lines : List Listing.Line) :
    lines.foldl Stats.take (s.begin e.module) = s.add (e.count lines) := by
  rw [Stats.foldl_take]
  rfl

/-! ### Listing into shared counters -/

/-- The lines of some entries; each is counted and handed to `emit` before the next is made. -/
def tallyOf (emit : Listing.Line → Outcome Failure Unit) :
    Stats → List Entry → Outcome Failure (List Listing.Line × Stats)
  | s, [] => .ok ([], s)
  | s, entry :: rest => do
    let line ← e.line entry
    emit line
    let (others, s) ← tallyOf emit (s.take line) rest
    return (line :: others, s)

/-- The lines of a module, counted as they are made. -/
def tally (emit : Listing.Line → Outcome Failure Unit) (s : Stats) :
    Outcome Failure (List Listing.Line × Stats) := do
  e.tallyOf emit (s.begin e.module) (← e.entries)

/-- The listing of a module, counted while it is made. -/
def describeInto (s : Stats) : Outcome Failure (Listing × Stats) := do
  let name ← .ofPath (e.name d)
  let title ← .ofPath (e.title d)
  let outputs ← .ofPath (e.outputs.mapM fun path => d.relative path e.root)
  let (lines, s) ← e.tally (fun _ => .ok ()) s
  return (⟨name, title, e.module.path, outputs, lines⟩, s)

/-- Prints the listing of a module under a label and counts it meanwhile. -/
def printTextInto (label : String) (s : Stats) : Outcome Failure Stats := do
  .print (label ++ ": " ++ e.module.path ++ "\n")
  let (_, s) ← e.tally (fun line => .printEach line.texts) s
  return s

/-- Prints the listing of a module as a JSON document; it is counted before that. -/
def printJsonInto (s : Stats) : Outcome Failure Stats := do
  let (listing, s) ← e.describeInto d s
  .print (listing.toJson.write Listing.style ++ "\n")
  return s

private theorem tallyOf_eq (emit : Listing.Line → Outcome Failure Unit) (s : Stats)
    (entries : List Entry) : e.tallyOf emit s entries =
      (e.linesOf emit entries).andThen fun lines => .ok (lines, lines.foldl Stats.take s) := by
  induction entries generalizing s with
  | nil => rfl
  | cons entry rest ih =>
    simp only [tallyOf, linesOf, Outcome.bind_eq, Outcome.pure_eq, Outcome.andThen_assoc,
      Outcome.ok_andThen, ih, List.foldl_cons]

private theorem tally_eq (emit : Listing.Line → Outcome Failure Unit) (s : Stats) :
    e.tally emit s = (e.lines emit).andThen fun lines => .ok (lines, s.add (e.count lines)) := by
  simp only [tally, lines, Outcome.bind_eq, Outcome.andThen_assoc, tallyOf_eq, foldl_take_begin]

/-- A description adds what it counts. -/
private theorem describeInto_eq (s : Stats) : e.describeInto d s =
    (e.describe d).andThen fun (listing, counted) => .ok (listing, s.add counted) := by
  simp only [describeInto, describe, tally_eq, Outcome.bind_eq, Outcome.pure_eq,
    Outcome.andThen_assoc, Outcome.ok_andThen]

/-- And so does a text. -/
theorem printTextInto_eq (label : String) (s : Stats) : e.printTextInto label s =
    (e.printText label).andThen fun counted => .ok (s.add counted) := by
  simp only [printTextInto, printText, tally_eq, Outcome.bind_eq, Outcome.pure_eq,
    Outcome.andThen_assoc, Outcome.ok_andThen]

/-- And so does a document. -/
theorem printJsonInto_eq (s : Stats) : e.printJsonInto d s =
    (e.printJson d).andThen fun counted => .ok (s.add counted) := by
  simp only [printJsonInto, printJson, describeInto_eq, Outcome.bind_eq, Outcome.pure_eq,
    Outcome.andThen_assoc, Outcome.ok_andThen]

/-- What the listing of a module counts by itself. -/
def counted : Stats :=
  e.count e.shownLines

private theorem parseErrors_counted : e.counted.parseErrors =
    if ∃ n ∈ e.module.tree.preorder none, n.1.isFault = true then 1 else 0 := by
  simp only [counted, count, Module.hasErrors, Tree.hasError_iff none]

end ModuleEntry

/-! ### Documents laid out flat -/

/-- The value under a name, or null. -/
def Json.under (v : Json) (name : String) : Json :=
  match v with
  | .obj fields => (Json.Fields.get? fields name).getD .null
  | _ => .null

/-- The items of an array. -/
def Json.elements : Json → List Json
  | .arr items => items
  | _ => []

namespace Listing

/-- The titles of the members in the description of an entry. -/
def memberTitles (entry : Json) : List String :=
  (entry.under "members").elements.filterMap Json.asStr?

/-- The entries of a document with a line for the title of each, and an indented one for the title
of each of its members. -/
def flat (document : Json) : String :=
  String.join ((document.under "entries").elements.map fun entry =>
    ((entry.under "title").asStr?.getD "") ++ "\n" ++
      String.join ((memberTitles entry).map fun member => "  " ++ member ++ "\n"))

private theorem elements_toJson (l : Listing) :
    (l.toJson.under "entries").elements = l.lines.map Line.toJson := by
  simp [toJson, Json.under, Json.Fields.get?_cons, Json.elements]

private theorem memberTitles_toJson (line : Line) : memberTitles line.toJson = line.members := by
  have hmembers : (line.toJson.under "members").elements = line.members.map Json.str := by
    simp [Line.toJson, Json.under, Json.Fields.get?_cons, Json.elements]
  rw [memberTitles, hmembers, List.filterMap_map]
  exact List.filterMap_some

/-- The text of a listing is its document laid out flat. -/
private theorem flat_toJson (l : Listing) :
    flat l.toJson = String.join (l.lines.map Line.text) := by
  rw [flat, elements_toJson, List.map_map]
  congr 1
  refine List.map_congr_left fun line _ => ?_
  rw [Function.comp_apply, memberTitles_toJson]
  simp [Line.text, Line.toJson, Json.under, Json.Fields.get?_cons, Json.asStr?]

/-- What is counted for a document: its entries and their members, and a parse error if the tree of
its module is damaged. -/
def countsOf (document : Json) (damaged : Bool) : Stats where
  modules := 1
  entries := (document.under "entries").elements.length
  members := ((document.under "entries").elements.flatMap memberTitles).length
  parseErrors := if damaged then 1 else 0

end Listing

namespace ModuleEntry

variable {d : Disk} {e : ModuleEntry}

private theorem count_eq_countsOf (l : Listing) :
    e.count l.lines = Listing.countsOf l.toJson e.module.hasErrors := by
  simp [count, Listing.countsOf, Listing.elements_toJson, List.flatMap_map,
    Listing.memberTitles_toJson]

/-- Where the texts of a module can be read, its text is printed to its end. -/
private theorem result_printTextInto (h : ∀ n ∈ e.module.shownNodes, n.Decodes e.module.source)
    (label : String) (s : Stats) :
    (e.printTextInto label s).result = .ok (s.add e.counted) := by
  obtain ⟨stats, hstats⟩ := (exists_printText_iff e label).mpr h
  rw [printTextInto_eq, Outcome.result_andThen, hstats]
  obtain ⟨⟨⟩, -, hstats⟩ := Outcome.result_andThen_eq_ok_iff.mp hstats
  obtain ⟨lines, hlines, hcount⟩ := Outcome.result_andThen_eq_ok_iff.mp hstats
  rw [counted, ← eq_shownLines (fun _ => rfl) hlines, ← Except.ok.inj hcount]
  rfl

/-- What is printed does not depend on the counts before. -/
private theorem printed_printTextInto (h : ∀ n ∈ e.module.shownNodes, n.Decodes e.module.source)
    (label : String) (s : Stats) : printed (e.printTextInto label s).trace =
      label ++ ": " ++ e.module.path ++ "\n" ++
        String.join (e.shownLines.map Listing.Line.text) := by
  obtain ⟨stats, hstats⟩ := (exists_printText_iff e label).mpr h
  have hshows : e.Shows ⟨[], "", .uniform 8⟩ label false (printed (e.printText label).trace) :=
    shows_of_printText hstats
  rw [printTextInto_eq, Outcome.printed_andThen_of_silent fun _ => .ok _]
  generalize printed (e.printText label).trace = out at hshows ⊢
  cases hshows
  rfl

private theorem exists_describeInto_iff (h : ∀ n ∈ e.module.shownNodes, n.Decodes e.module.source)
    (s : Stats) : (∃ described, (e.describeInto d s).result = .ok described) ↔ e.HasPaths := by
  rw [← and_iff_left (a := e.HasPaths) h, ← exists_describe_iff d e, describeInto_eq]
  simp only [Outcome.result_andThen_eq_ok_iff]
  constructor
  · rintro ⟨_, described, hdescribed, -⟩
    exact ⟨described, hdescribed⟩
  · rintro ⟨described, hdescribed⟩
    exact ⟨_, described, hdescribed, rfl⟩

theorem lines_of_describeInto {s s' : Stats} {listing : Listing}
    (h : (e.describeInto d s).result = .ok (listing, s')) :
    listing.lines = e.shownLines ∧ s' = s.add e.counted := by
  rw [describeInto_eq] at h
  obtain ⟨⟨listing', stats⟩, hdescribe, heq⟩ := Outcome.result_andThen_eq_ok_iff.mp h
  obtain ⟨rfl, rfl⟩ := Prod.mk.inj (Except.ok.inj heq)
  obtain ⟨name, -, hdescribe⟩ := Outcome.result_andThen_eq_ok_iff.mp hdescribe
  obtain ⟨title, -, hdescribe⟩ := Outcome.result_andThen_eq_ok_iff.mp hdescribe
  obtain ⟨outputs, -, hdescribe⟩ := Outcome.result_andThen_eq_ok_iff.mp hdescribe
  obtain ⟨lines, hlines, hdescribe⟩ := Outcome.result_andThen_eq_ok_iff.mp hdescribe
  obtain ⟨rfl, rfl⟩ := Prod.mk.inj (Except.ok.inj hdescribe)
  obtain rfl := eq_shownLines (fun _ => rfl) hlines
  exact ⟨rfl, rfl⟩

theorem result_printJsonInto (s : Stats) :
    (e.printJsonInto d s).result = (e.describeInto d s).result.map Prod.snd := by
  rw [printJsonInto, Outcome.bind_eq, Outcome.result_andThen]
  cases (e.describeInto d s).result <;> rfl

end ModuleEntry

/-! ### Listings in a row -/

/-- The ways to list a module: as text under a label, as a JSON document, or as a description that
is not printed. -/
inductive Listing.Form where
  | text (label : String)
  | json
  | description

namespace ModuleEntry

variable (d : Disk)

/-- Lists a module in one of the forms and counts it meanwhile. -/
def listInto (e : ModuleEntry) (s : Stats) : Listing.Form → Outcome Failure Stats
  | .text label => e.printTextInto label s
  | .json => e.printJsonInto d s
  | .description => do
    let (_, s) ← e.describeInto d s
    return s

/-- Lists modules one after the other, each in its form, into the same counters. -/
def listAllInto (s : Stats) (jobs : List (Listing.Form × ModuleEntry)) : Outcome Failure Stats :=
  jobs.foldlM (fun s job => job.2.listInto d s job.1) s

private theorem listAllInto_cons (s : Stats) (job : Listing.Form × ModuleEntry)
    (jobs : List (Listing.Form × ModuleEntry)) : listAllInto d s (job :: jobs) =
      (job.2.listInto d s job.1).andThen fun s => listAllInto d s jobs := by
  rw [listAllInto, List.foldlM_cons]
  rfl

/-- A module can be listed in a form: only text needs no paths. -/
def Fits (e : ModuleEntry) : Listing.Form → Prop
  | .text _ => True
  | .json | .description => e.HasPaths

variable {d} {e : ModuleEntry}

theorem result_listInto_description (s : Stats) :
    (e.listInto d s .description).result = (e.describeInto d s).result.map Prod.snd := by
  rw [listInto, Outcome.bind_eq, Outcome.result_andThen]
  cases (e.describeInto d s).result <;> rfl

/-- **One listing**, in whatever form, ends exactly where the form fits, and counts the same. -/
theorem result_listInto (h : ∀ n ∈ e.module.shownNodes, n.Decodes e.module.source)
    (form : Listing.Form) (s s' : Stats) :
    (e.listInto d s form).result = .ok s' ↔ e.Fits form ∧ s' = s.add e.counted := by
  have hdescribed : (e.describeInto d s).result.map Prod.snd = .ok s' ↔
      e.HasPaths ∧ s' = s.add e.counted := by
    rw [← exists_describeInto_iff (d := d) h s, Except.map_eq_ok_iff]
    constructor
    · rintro ⟨⟨listing, s'⟩, hdescribe, rfl⟩
      exact ⟨⟨_, hdescribe⟩, (lines_of_describeInto hdescribe).2⟩
    · rintro ⟨⟨⟨listing, s'⟩, hdescribe⟩, rfl⟩
      exact ⟨_, hdescribe, (lines_of_describeInto hdescribe).2⟩
  cases form with
  | text label =>
    rw [listInto, result_printTextInto h, Except.ok.injEq]
    exact ⟨fun heq => ⟨trivial, heq.symm⟩, fun ⟨_, heq⟩ => heq.symm⟩
  | json => rw [listInto, result_printJsonInto, hdescribed, Fits]
  | description => rw [result_listInto_description, hdescribed, Fits]

/-- The counts after some more modules have been listed. -/
def countedAfter (s : Stats) (jobs : List (Listing.Form × ModuleEntry)) : Stats where
  modules := s.modules + jobs.length
  entries := s.entries + (jobs.map fun job => job.2.counted.entries).sum
  members := s.members + (jobs.map fun job => job.2.counted.members).sum
  parseErrors := s.parseErrors + (jobs.map fun job => job.2.counted.parseErrors).sum

private theorem countedAfter_nil (s : Stats) : countedAfter s [] = s := rfl

private theorem countedAfter_cons (s : Stats) (job : Listing.Form × ModuleEntry)
    (jobs : List (Listing.Form × ModuleEntry)) :
    countedAfter s (job :: jobs) = countedAfter (s.add job.2.counted) jobs := by
  simp [countedAfter, Stats.add, counted, count, Nat.add_assoc, Nat.add_comm, Nat.add_left_comm]

/-- **Listings in a row** end exactly where the form fits each module, and the counts are sums. -/
theorem result_listAllInto {jobs : List (Listing.Form × ModuleEntry)}
    (h : ∀ job ∈ jobs, ∀ n ∈ job.2.module.shownNodes, n.Decodes job.2.module.source)
    (s s' : Stats) : (listAllInto d s jobs).result = .ok s' ↔
      (∀ job ∈ jobs, job.2.Fits job.1) ∧ s' = countedAfter s jobs := by
  induction jobs generalizing s with
  | nil =>
    rw [countedAfter_nil, listAllInto, List.foldlM_nil]
    refine ⟨fun heq => ⟨nofun, (Except.ok.inj heq).symm⟩, ?_⟩
    rintro ⟨-, rfl⟩
    rfl
  | cons job rest ih =>
    obtain ⟨hjob, hrest⟩ := List.forall_mem_cons.mp h
    rw [listAllInto_cons, Outcome.result_andThen_eq_ok_iff, List.forall_mem_cons,
      countedAfter_cons]
    constructor
    · rintro ⟨between, hfirst, hothers⟩
      obtain ⟨hfits, rfl⟩ := (result_listInto hjob job.1 s between).mp hfirst
      obtain ⟨hall, rfl⟩ := (ih hrest (s.add job.2.counted)).mp hothers
      exact ⟨⟨hfits, hall⟩, rfl⟩
    · rintro ⟨⟨hfits, hall⟩, rfl⟩
      exact ⟨_, (result_listInto hjob job.1 s _).mpr ⟨hfits, rfl⟩,
        (ih hrest (s.add job.2.counted)).mpr ⟨hall, rfl⟩⟩

/-- The forms of the listing of a module agree. -/
structure ListsAlike (d : Disk) (e : ModuleEntry) : Prop where
  /-- In every form that fits, the listing ends and counts the same. -/
  counts : ∀ form s s', (e.listInto d s form).result = .ok s' ↔
    e.Fits form ∧ s' = s.add e.counted
  /-- The text has a head with the path, and then the lines. -/
  text : ∀ label s, printed (e.printTextInto label s).trace =
    label ++ ": " ++ e.module.path ++ "\n" ++ String.join (e.shownLines.map Listing.Line.text)
  /-- These lines are the description laid out flat, and its entries are what is counted. -/
  described : ∀ s listing s', (e.describeInto d s).result = .ok (listing, s') →
    String.join (e.shownLines.map Listing.Line.text) = Listing.flat listing.toJson ∧
      e.counted = Listing.countsOf listing.toJson e.module.hasErrors
  /-- Damage in the tree is one parse error. -/
  parseErrors : e.counted.parseErrors =
    if ∃ n ∈ e.module.tree.preorder none, n.1.isFault = true then 1 else 0

private theorem listsAlike (h : ∀ n ∈ e.module.shownNodes, n.Decodes e.module.source) :
    e.ListsAlike d := by
  refine ⟨result_listInto h, printed_printTextInto h, fun s listing s' hdescribe => ?_,
    parseErrors_counted e⟩
  obtain ⟨hlines, -⟩ := lines_of_describeInto hdescribe
  rw [Listing.flat_toJson, counted, ← hlines]
  exact ⟨rfl, count_eq_countsOf listing⟩

/-- **Listings agree.** Where the texts of some modules can be read, each of them is listed alike in
text, in JSON and as a description. In a row of listings that share their counters, in whatever
forms, these end as they began with the sums of what was listed added to them. -/
theorem listings_agree (d : Disk) {jobs : List (Listing.Form × ModuleEntry)}
    (h : ∀ job ∈ jobs, ∀ n ∈ job.2.module.shownNodes, n.Decodes job.2.module.source) :
    (∀ job ∈ jobs, job.2.ListsAlike d) ∧ ∀ s s', (listAllInto d s jobs).result = .ok s' ↔
      (∀ job ∈ jobs, job.2.Fits job.1) ∧ s' = countedAfter s jobs :=
  ⟨fun job hjob => listsAlike (h job hjob), fun s s' => result_listAllInto h s s'⟩

/-- `export class A { b() {} }` and a stray mark after it. -/
def strayMark : Module where
  path := "/p/a.ts"
  source := "export class A \x7b b() \x7b\x7d \x7d ?".toUTF8.toList
  tree := .node ⟨"program", 0, 27, true, false, ""⟩
    [.node ⟨"export_statement", 0, 25, true, false, ""⟩
      [.node ⟨"export", 0, 6, false, false, ""⟩ [],
        .node ⟨"class_declaration", 7, 25, true, false, "declaration"⟩
          [.node ⟨"type_identifier", 13, 14, true, false, "name"⟩ [],
            .node ⟨"class_body", 15, 25, true, false, "body"⟩
              [.node ⟨"method_definition", 17, 23, true, false, ""⟩
                [.node ⟨"property_identifier", 17, 18, true, false, "name"⟩ [],
                  .node ⟨"formal_parameters", 18, 20, true, false, "parameters"⟩ []]]]],
      .node ⟨"ERROR", 26, 27, true, false, ""⟩ []]

/-- The module is printed as text and then as a document. -/
theorem listings_agree_strayMark :
    (∀ n ∈ strayMark.shownNodes, n.Decodes strayMark.source) ∧
      (listAllInto ⟨[], "/", .uniform 8⟩ ⟨3, 0, 1, 0⟩
        [(.text "Main module", ⟨"/p", strayMark, []⟩), (.json, ⟨"/p", strayMark, []⟩)]).result =
        .ok ⟨5, 2, 3, 2⟩ := by
  have hascii : ∀ b ∈ strayMark.source, b.toNat < 0x80 := by decide +kernel
  have hdecodes : ∀ n ∈ strayMark.shownNodes, n.Decodes strayMark.source := fun n _ =>
    Node.decodes_of_ascii hascii n
  have hpaths : HasPaths ⟨"/p", strayMark, []⟩ := ⟨by decide, nofun⟩
  have hjobs : ∀ job ∈ [(Listing.Form.text "Main module", ModuleEntry.mk "/p" strayMark []),
      (.json, ⟨"/p", strayMark, []⟩)],
      ∀ n ∈ job.2.module.shownNodes, n.Decodes job.2.module.source := by
    simpa using hdecodes
  have hagree := listings_agree ⟨[], "/", .uniform 8⟩ hjobs
  refine ⟨hdecodes, (hagree.2 _ _).mpr ⟨?_, ?_⟩⟩
  · rw [List.forall_mem_cons, List.forall_mem_singleton]
    exact ⟨trivial, hpaths⟩
  · decide +kernel

end ModuleEntry

end ApiOutline
