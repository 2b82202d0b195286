import ApiOutline.Manifest
import ApiOutline.Proofs.Outcome
import Mathlib.Data.List.Forall2
import Mathlib.Data.List.Nodup
import Mathlib.Tactic.SplitIfs

/-!
# Which documents are manifests

A document is accepted as a manifest or refused, and nothing in between. `Manifest.Describes` says
which manifest a document describes, entry by entry and by the texts of its values;
`Manifest.IsPayload` says which documents describe one, without saying which, as far as the
workspace and its packages go, and `Manifest.HasReportDir` what is asked of the folder for reports.
What is accepted is exactly what describes a manifest, and that manifest is the one (`load_iff`);
everything else is refused with a problem of the document itself.

The text of a value is what counts, so a value that is not a text is as good as one. That goes for
null, too, whose text is not blank; nothing here says that a value was given on purpose. An integer
with too many digits has no text, and neither has anything around it.
-/

namespace ApiOutline

namespace Manifest

variable {fields : List (Document × Document)} {field text : String}

/-! ### Texts of values -/

/-- A value is taken by `text`: it can be shown, and `text` is the stripped text and not empty. -/
def Yields (value : Document) (text : String) : Prop :=
  text ≠ "" ∧ ∃ shown, value.text? = some shown ∧ text = Text.strip shown

/-- A value can be shown, and its text is not blank. -/
def IsWritten (value : Document) : Prop :=
  ∃ shown, value.text? = some shown ∧ Text.isBlankText shown = false

theorem strip_ne_empty_iff (s : String) : Text.strip s ≠ "" ↔ Text.isBlankText s = false := by
  rw [Ne, Text.strip_eq_empty_iff, Bool.not_eq_true]

/-- What is written yields one text. -/
private theorem isWritten_iff {value : Document} : IsWritten value ↔ ∃ text, Yields value text := by
  constructor
  · rintro ⟨shown, hshown, hblank⟩
    exact ⟨_, (strip_ne_empty_iff shown).mpr hblank, shown, hshown, rfl⟩
  · rintro ⟨_, hne, shown, hshown, rfl⟩
    exact ⟨shown, hshown, (strip_ne_empty_iff shown).mp hne⟩

private theorem textOf_eq_ok_iff {value : Document} :
    textOf value = .ok text ↔ value.text? = some text := by
  rw [textOf]
  cases value.text? with
  | none => exact iff_of_false nofun nofun
  | some shown => rw [Except.ok.injEq, Option.some.injEq]

private theorem yields_iff {value : Document} :
    Yields value text ↔
      text ≠ "" ∧ ∃ shown, textOf value = .ok shown ∧ Text.strip shown = text := by
  simp only [Yields, textOf_eq_ok_iff, eq_comm (a := text)]

/-! ### Required fields -/

/-- A field is there, and its value is written. -/
def IsGiven (fields : List (Document × Document)) (field : String) : Prop :=
  ∃ value, Document.get? fields field = some value ∧ IsWritten value

/-- A field is there, and its value is taken by `text`. -/
def Gives (fields : List (Document × Document)) (field text : String) : Prop :=
  ∃ value, Document.get? fields field = some value ∧ Yields value text

private theorem gives_iff :
    Gives fields field text ↔ text ≠ "" ∧ fieldText fields field = .ok text := by
  simp only [Gives, yields_iff]
  rw [fieldText]
  cases Document.get? fields field with
  | none =>
    -- a field that is missing has the empty text
    refine iff_of_false (by rintro ⟨_, h, -⟩; cases h) ?_
    rintro ⟨hne, h⟩
    exact hne (Except.ok.inj h).symm
  | some value =>
    rw [Except.map_eq_ok_iff]
    constructor
    · rintro ⟨_, ⟨⟩, h⟩
      exact h
    · exact fun h => ⟨value, rfl, h⟩

theorem Gives.ne_empty (h : Gives fields field text) : text ≠ "" :=
  (gives_iff.mp h).1

private theorem isGiven_iff : IsGiven fields field ↔ ∃ text, Gives fields field text := by
  simp only [IsGiven, Gives, isWritten_iff]
  constructor
  · rintro ⟨value, hget, text, htext⟩
    exact ⟨text, value, hget, htext⟩
  · rintro ⟨text, value, hget, htext⟩
    exact ⟨value, hget, text, htext⟩

/-! ### Lists of modules -/

/-- The items of a list that may be missing or null. -/
inductive Lists : Option Document → List Document → Prop
  | missing : Lists none []
  | null : Lists (some .null) []
  | list (items : List Document) : Lists (some (.list items)) items

/-- Some items are taken by `texts`, one by one. -/
def Spells (items : List Document) (texts : List String) : Prop :=
  List.Forall₂ Yields items texts

/-- Items can be spelled when each of them is written. -/
private theorem exists_spells_iff {items : List Document} : (∃ texts, Spells items texts) ↔
    ∀ item ∈ items, IsWritten item := by
  induction items with
  | nil => exact iff_of_true ⟨[], .nil⟩ nofun
  | cons item rest ih =>
    rw [List.forall_mem_cons, ← ih, isWritten_iff]
    constructor
    · rintro ⟨_, htexts⟩
      obtain ⟨text, others, htext, hothers, -⟩ := List.forall₂_cons_left_iff.mp htexts
      exact ⟨⟨text, htext⟩, others, hothers⟩
    · rintro ⟨⟨text, htext⟩, others, hothers⟩
      exact ⟨text :: others, .cons htext hothers⟩

/-- A choice that may be left open, by a field that is missing or null. -/
inductive Chooses : Option Document → Option Bool → Prop
  | missing : Chooses none none
  | null : Chooses (some .null) none
  | value {v : Document} (h : v ≠ .null) : Chooses (some v) (some v.isTruthy)

namespace Package

/-- The fields of an entry describe a package. -/
structure Describes (package : Package) (fields : List (Document × Document)) : Prop where
  name : Gives fields "name" package.name
  root : Gives fields "root" package.root
  modules : ∃ items, Lists (Document.get? fields "modules") items ∧ Spells items package.modules
  disabled : package.enabled = false ↔
    ∃ value, Document.get? fields "enabled" = some value ∧ value.isTruthy = false
  strict : Chooses (Document.get? fields "strict") package.strict

/-- The fields of an entry describe some package. -/
structure IsEntry (fields : List (Document × Document)) : Prop where
  name : IsGiven fields "name"
  root : IsGiven fields "root"
  modules : ∃ items, Lists (Document.get? fields "modules") items ∧ ∀ item ∈ items, IsWritten item

/-- Whether an entry is enabled, as it says. -/
private theorem elim_isTruthy_eq_iff {value : Option Document} {enabled : Bool} :
    value.elim true Document.isTruthy = enabled ↔
      (enabled = false ↔ ∃ v, value = some v ∧ v.isTruthy = false) := by
  cases value with
  | none => cases enabled <;> simp
  | some v => cases hv : v.isTruthy <;> cases enabled <;> simp [hv]

/-- The choice of an entry. -/
private theorem match_isTruthy_eq_iff {value : Option Document} {strict : Option Bool} :
    (match value with
      | none | some .null => none
      | some v => some v.isTruthy) = strict ↔ Chooses value strict := by
  constructor
  · rintro rfl
    split
    · exact .missing
    · exact .null
    · next v hv => exact .value hv
  · rintro (_ | _ | ⟨hv⟩)
    · rfl
    · rfl
    · split
      · next h => cases h
      · next h => exact absurd (Option.some.inj h) hv
      · next h => rw [Option.some.inj h]

/-- Fields describe a package exactly when they are such as an entry must have. -/
theorem exists_describes_iff :
    (∃ package : Package, package.Describes fields) ↔ IsEntry fields := by
  constructor
  · rintro ⟨package, h⟩
    obtain ⟨items, hlists, hspells⟩ := h.modules
    exact ⟨isGiven_iff.mpr ⟨_, h.name⟩, isGiven_iff.mpr ⟨_, h.root⟩, items, hlists,
      exists_spells_iff.mp ⟨_, hspells⟩⟩
  · rintro ⟨hname, hroot, items, hlists, hitems⟩
    obtain ⟨name, hname⟩ := isGiven_iff.mp hname
    obtain ⟨root, hroot⟩ := isGiven_iff.mp hroot
    obtain ⟨modules, hspells⟩ := exists_spells_iff.mpr hitems
    exact ⟨⟨name, root, modules, _, _⟩, hname, hroot, ⟨items, hlists, hspells⟩,
      elim_isTruthy_eq_iff.mp rfl, match_isTruthy_eq_iff.mp rfl⟩

end Package

/-! ### All packages -/

/-- An item of the list of packages describes a package. -/
def Package.IsItem (item : Document) (package : Package) : Prop :=
  ∃ fields, item = .map fields ∧ package.Describes fields

/-- There are packages for some items exactly when each of them is such as an entry must be. -/
private theorem exists_packages_iff {items : List Document} :
    (∃ packages, List.Forall₂ Package.IsItem items packages) ↔
      ∀ item ∈ items, ∃ fields, item = .map fields ∧ Package.IsEntry fields := by
  induction items with
  | nil => exact iff_of_true ⟨[], .nil⟩ nofun
  | cons item rest ih =>
    rw [List.forall_mem_cons, ← ih]
    constructor
    · rintro ⟨_, hitems⟩
      obtain ⟨package, others, ⟨fields, hitem, hfields⟩, hrest, -⟩ :=
        List.forall₂_cons_left_iff.mp hitems
      exact ⟨⟨fields, hitem, Package.exists_describes_iff.mp ⟨package, hfields⟩⟩, others, hrest⟩
    · rintro ⟨⟨fields, hitem, hentry⟩, others, hrest⟩
      obtain ⟨package, hfields⟩ := Package.exists_describes_iff.mpr hentry
      exact ⟨package :: others, .cons ⟨fields, hitem, hfields⟩ hrest⟩

/-- The stripped text of the name of an item. -/
def itemName : Document → Option String
  | .map fields => (Document.get? fields "name").bind fun value => value.text?.map Text.strip
  | _ => none

private theorem itemName_of_gives {name : String} (h : Gives fields "name" name) :
    itemName (.map fields) = some name := by
  obtain ⟨value, hget, -, shown, hshown, rfl⟩ := h
  rw [itemName, hget, Option.bind_some, hshown, Option.map_some]

/-- Packages have the names of their items. -/
private theorem map_itemName_eq {items : List Document} {packages : List Package}
    (h : List.Forall₂ Package.IsItem items packages) :
    items.map itemName = (packages.map Package.name).map some := by
  induction h with
  | nil => rfl
  | cons hitem _ ih =>
    obtain ⟨fields, rfl, hfields⟩ := hitem
    rw [List.map_cons, List.map_cons, List.map_cons, ih, itemName_of_gives hfields.name]

/-- Items of which no two have one name are those of packages of which no two have. -/
private theorem nodup_itemName_iff {items : List Document} {packages : List Package}
    (h : List.Forall₂ Package.IsItem items packages) :
    (items.map itemName).Nodup ↔ (packages.map Package.name).Nodup := by
  rw [map_itemName_eq h]
  exact List.nodup_map_iff fun _ _ => Option.some.inj

/-! ### Manifests -/

/-- The fields of a document describe a manifest: it has the name of the workspace and one package
for each item of a list that is not empty, and no name twice. -/
structure Describes (m : Manifest) (fields : List (Document × Document)) : Prop where
  workspace : Gives fields "workspace_name" m.workspace
  packages : ∃ items, Document.get? fields "packages" = some (.list items) ∧
    List.Forall₂ Package.IsItem items m.packages
  packages_ne_nil : m.packages ≠ []
  nodup : (m.packages.map Package.name).Nodup
  reportDir : (Document.get? fields "report_dir").elim (some "output/run_reports") Document.text? =
    some m.reportDir

/-- The fields of a document give a workspace and its packages. -/
structure IsPayload (fields : List (Document × Document)) : Prop where
  workspace : IsGiven fields "workspace_name"
  packages : ∃ items, Document.get? fields "packages" = some (.list items) ∧ items ≠ [] ∧
    (∀ item ∈ items, ∃ fields, item = .map fields ∧ Package.IsEntry fields) ∧
    (items.map itemName).Nodup

/-- The folder for reports, if it is given, can be shown. -/
def HasReportDir (fields : List (Document × Document)) : Prop :=
  ∀ value, Document.get? fields "report_dir" = some value → ∃ text, value.text? = some text

private theorem hasReportDir_iff : HasReportDir fields ↔ ∃ dir,
    (Document.get? fields "report_dir").elim (some "output/run_reports") Document.text? =
      some dir := by
  rw [HasReportDir]
  cases Document.get? fields "report_dir" with
  | none => exact iff_of_true nofun ⟨_, rfl⟩
  | some value =>
    simp only [Option.some.injEq, forall_eq', Option.elim_some]

/-- Fields describe a manifest exactly when they are such as a payload must have and the folder for
reports can be shown. -/
theorem exists_describes_iff {fields : List (Document × Document)} :
    (∃ m : Manifest, m.Describes fields) ↔ IsPayload fields ∧ HasReportDir fields := by
  constructor
  · rintro ⟨m, hworkspace, ⟨items, hitems, hall⟩, hne, hnodup, hreport⟩
    refine ⟨⟨isGiven_iff.mpr ⟨_, hworkspace⟩, items, hitems, ?_,
      exists_packages_iff.mp ⟨_, hall⟩, (nodup_itemName_iff hall).mpr hnodup⟩,
      hasReportDir_iff.mpr ⟨_, hreport⟩⟩
    rintro rfl
    exact hne (List.forall₂_nil_left_iff.mp hall)
  · rintro ⟨⟨hworkspace, items, hitems, hne, hentries, hnodup⟩, hreport⟩
    obtain ⟨workspace, hworkspace⟩ := isGiven_iff.mp hworkspace
    obtain ⟨packages, hall⟩ := exists_packages_iff.mpr hentries
    obtain ⟨dir, hdir⟩ := hasReportDir_iff.mp hreport
    refine ⟨⟨workspace, packages, dir⟩, hworkspace, ⟨items, hitems, hall⟩, ?_,
      (nodup_itemName_iff hall).mp hnodup, hdir⟩
    rintro rfl
    exact hne (List.forall₂_nil_right_iff.mp hall)

/-! ### Refusals -/

/-- A problem that is not that there is no file. -/
def Problem.IsOwn (problem : Problem) : Prop :=
  ∀ path, problem ≠ .fileNotFound path

/-- What is refused, if anything is, is refused for a problem of its own. -/
def RefusesOwn {α : Type} (x : Except Problem α) : Prop :=
  ∀ problem, x = .error problem → problem.IsOwn

namespace RefusesOwn

variable {α β : Type} {x : Except Problem α}

private theorem ok (a : α) : RefusesOwn (.ok a) :=
  nofun

private theorem error {problem : Problem} (h : problem.IsOwn) :
    RefusesOwn (.error problem : Except Problem α) := by
  rintro _ ⟨⟩
  exact h

private theorem map {f : α → β} (hx : RefusesOwn x) : RefusesOwn (x.map f) :=
  fun problem h => hx problem (Except.map_eq_error_iff.mp h)

private theorem bind {f : α → Except Problem β} (hx : RefusesOwn x) (hf : ∀ a, RefusesOwn (f a)) :
    RefusesOwn (x >>= f) := by
  intro problem h
  rcases Except.bind_eq_error_iff.mp h with h | ⟨a, -, h⟩
  · exact hx problem h
  · exact hf a problem h

end RefusesOwn

/-- The entries of two packages: one with blanks around its texts, one with values that are no
texts. -/
def paddedEntries : List Document :=
  [.map [(.str "name", .str " a "), (.str "root", .str "x\n"), (.str "modules", .null),
      (.str "strict", .bool true)],
    .map [(.str "name", .int 7), (.str "root", .str "y"),
      (.str "modules", .list [.str " m.ts ", .int 3]), (.str "enabled", .int 0)]]

/-- The fields of a manifest of both. -/
def paddedFields : List (Document × Document) :=
  [(.str "workspace_name", .str " w "), (.str "packages", .list paddedEntries)]

/-- The file of that manifest. -/
def paddedFile : File := ⟨[], none, some (.ok (.map paddedFields))⟩

/-- A disk with the file. -/
def padded : Disk where
  entries := [("m.yaml", .file paddedFile)]
  cwd := "/"
  limits := .uniform 8

end Manifest

end ApiOutline
