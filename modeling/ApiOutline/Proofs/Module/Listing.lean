import ApiOutline.Listing
import ApiOutline.Proofs.Module.Entries
import ApiOutline.Proofs.Path.Names

/-!
# What a listing reads

A listing shows the title of every entry of a module and the titles of what each of them owns, so it
reads the texts that tell the entries (`Module.entryNodes`) and those of the names it shows. Nothing
else stands in its way: a module with a path can be listed, asked and described exactly when these
texts are UTF-8 (`evaluates_iff`), whatever tree stands over the source.

What is shown is described as it is read: `shownTitle` puts a title together from names and
parameters, `owned` tells what an entry owns, and `shownLine` is the line that both make.
-/

namespace ApiOutline

variable (source : List UInt8)

/-! ### Texts of plain bytes -/

/-- Every text of a source in ASCII can be read, wherever it is cut out. -/
theorem Node.decodes_of_ascii {source : List UInt8} (h : ∀ b ∈ source, b.toNat < 0x80) (n : Node) :
    n.Decodes source := by
  have hspan : ∀ b ∈ (source.take n.tree.label.stop).drop n.tree.label.start, b.toNat < 0x80 :=
    fun b hb => h b (List.mem_of_mem_take (List.mem_of_mem_drop hb))
  rw [Node.Decodes, Node.text, Utf8.decode, Utf8.decodeFrom_ascii 0 _ hspan]
  exact ⟨_, rfl⟩

/-! ### Titles -/

private theorem reads_parameterTexts (n : Node) :
    Reads source ((Declaration.parameterNodes n).map Declaration.parameterNode)
      (n.parameterTexts source)
      (((Declaration.parameterNodes n).map (Declaration.parameterOf source)).map
        Title.parameter) :=
  (Declaration.reads_parameters source n).map (List.map Title.parameter)

/-- The title of what is owned. -/
def Member.shownTitle (o : Member) : String :=
  o.owner.shownName source ++ Title.joiner (Declaration.isStatic o.node) ++ o.callOf source

namespace Entry

/-- The title of an entry: its keyword and its name, and the parameters of a function. -/
def shownTitle (e : Entry) : String :=
  e.variant.keyword ++ " " ++ e.node.shownName source ++
    if e.variant = .function then
      "(" ++ ", ".intercalate
        (((Declaration.parameterNodes e.node).map (Declaration.parameterOf source)).map
          Title.parameter) ++ ")"
    else ""

/-- What is read for a title: the name, and for a function those of its parameters. -/
def titleNodes (e : Entry) : List Node :=
  (Declaration.nameNode? e.node).toList ++
    if e.variant = .function then
      (Declaration.parameterNodes e.node).map Declaration.parameterNode
    else []

theorem reads_title (e : Entry) :
    Reads source e.titleNodes (e.title source) (e.shownTitle source) := by
  rw [title, titleNodes, shownTitle]
  refine (reads_displayName source e.node).bind ?_
  cases hvariant : e.variant with
  | function =>
    -- only a function shows parameters
    rw [if_pos rfl, if_pos rfl]
    refine Reads.of_eq ((reads_parameterTexts source e.node).bind_pure
      (Title.function (some (e.node.shownName source)))) ?_
    rw [Title.function, Title.call_shownName]
    simp [Variant.keyword, String.append_assoc]
  | _ =>
    rw [if_neg (by decide), if_neg (by decide), String.append_empty]
    refine Reads.of_eq (.ok source _) ?_
    rw [Title.keyword, Title.displayName_shownName]

/-! ### Lines -/

/-- An entry owns something if it is that of a class or an interface. -/
def IsOwner (e : Entry) : Prop :=
  e.variant = .classEntry ∨ e.variant = .interface

instance : DecidablePred IsOwner := fun e =>
  inferInstanceAs (Decidable (e.variant = .classEntry ∨ e.variant = .interface))

/-- What an entry owns. -/
def owned (e : Entry) : List Member :=
  if e.IsOwner then
    e.bodyNodes.flatMap fun n => (Member.variantsOf source n).map (⟨·, e.node, n⟩)
  else []

/-- What is read to tell what an entry owns. -/
def ownedNodes (e : Entry) : List Node :=
  if e.IsOwner then e.bodyNodes.flatMap (Member.memberNodes source e.node) else []

private theorem reads_owned {e : Entry}
    (hkind : Declaration.kindOf source e.node = e.variant.declares) :
    Reads source (e.ownedNodes source) (e.members source).result (e.owned source) := by
  rw [ownedNodes, owned]
  by_cases howner : e.IsOwner
  · rw [if_pos howner, if_pos howner]
    exact reads_members source hkind howner
  · rw [if_neg howner, if_neg howner, members]
    rw [IsOwner, not_or] at howner
    cases hvariant : e.variant with
    | classEntry => exact absurd hvariant howner.1
    | interface => exact absurd hvariant howner.2
    | _ => exact .ok source []

/-- The line of an entry. -/
def shownLine (e : Entry) : Listing.Line :=
  ⟨e.shownTitle source, (e.owned source).map (Member.shownTitle source)⟩

/-- What is read for the line of an entry. -/
def lineNodes (e : Entry) : List Node :=
  e.ownedNodes source ++ ((e.owned source).flatMap Member.titleNodes ++ e.titleNodes)

/-- Everything that is asked of an entry gives something, and so does everything that is asked of
what it owns. -/
structure Evaluates (e : Entry) : Prop where
  name : ∃ name, e.name source = .ok name
  title : ∃ title, e.title source = .ok title
  members : ∃ owned, (e.members source).result = .ok owned ∧ ∀ o ∈ owned,
    (∃ name, o.name source = .ok name) ∧ (∃ call, o.callText source = .ok call) ∧
    (∃ title, o.title source = .ok title) ∧ ∃ below, o.members.result = .ok below

/-- An entry can be asked everything when its line can be read. -/
private theorem evaluates_of_lineNodes {e : Entry}
    (hkind : Declaration.kindOf source e.node = e.variant.declares)
    (h : ∀ n ∈ e.lineNodes source, n.Decodes source) : e.Evaluates source := by
  obtain ⟨hmembers, htitles⟩ := List.forall_mem_append.mp h
  obtain ⟨howned, htitle⟩ := List.forall_mem_append.mp htitles
  have hname := (List.forall_mem_append.mp htitle).1
  refine ⟨⟨_, (reads_displayName source e.node).eq_ok hname⟩,
    ⟨_, (reads_title source e).eq_ok htitle⟩,
    ⟨_, (reads_owned source hkind).eq_ok hmembers, fun o ho => ?_⟩⟩
  have hnodes : ∀ n ∈ o.titleNodes, n.Decodes source := fun n hn =>
    howned n (List.mem_flatMap.mpr ⟨o, ho, hn⟩)
  have hcall := (List.forall_mem_append.mp hnodes).2
  exact ⟨⟨_, (reads_displayName source o.node).eq_ok (List.forall_mem_append.mp hcall).1⟩,
    ⟨_, (Member.reads_callText source o).eq_ok hcall⟩,
    ⟨_, (Member.reads_title source o).eq_ok hnodes⟩, [], rfl⟩

end Entry

/-! ### Modules -/

namespace Module

/-- The entries that a module has. -/
def documented (m : Module) : List Entry :=
  (Exports.firstByKey [] (Exports.resolutions m)).filterMap (Entry.forNode? m.source)

/-- What is read to list a module: what tells its entries, and what their lines show. -/
def shownNodes (m : Module) : List Node :=
  m.entryNodes ++ m.documented.flatMap (Entry.lineNodes m.source)

private theorem kindOf_of_mem_documented {m : Module} {e : Entry} (h : e ∈ m.documented) :
    Declaration.kindOf m.source e.node = e.variant.declares := by
  obtain ⟨n, -, hentry⟩ := List.mem_filterMap.mp h
  obtain ⟨rfl, hkind⟩ := (Entry.forNode?_eq_some_iff m.source).mp hentry
  exact hkind

end Module

namespace ModuleEntry

variable (d : Disk) (e : ModuleEntry)

theorem reads_entries :
    Reads e.module.source e.module.entryNodes e.entries.result e.module.documented :=
  e.module.reads_entries.mapError Failure.encoding

private theorem reads_line {entry : Entry}
    (hkind : Declaration.kindOf e.module.source entry.node = entry.variant.declares) :
    Reads e.module.source (entry.lineNodes e.module.source) (e.line entry).result
      (entry.shownLine e.module.source) := by
  have htitles := Reads.mapM (entry.owned e.module.source) fun o _ =>
    Member.reads_title e.module.source o
  have htitle := Entry.reads_title e.module.source entry
  refine Reads.andThen ((Entry.reads_owned e.module.source hkind).mapError Failure.encoding) ?_
  exact Reads.andThen_both (x := .ofExcept _) (y := .ofExcept _) (htitles.mapError Failure.encoding)
    (htitle.mapError Failure.encoding) fun members title => Listing.Line.mk title members

variable {emit : Listing.Line → Outcome Failure Unit}

private theorem reads_linesOf (hemit : ∀ line, (emit line).result = .ok ()) (entries : List Entry)
    (hkinds : ∀ entry ∈ entries,
      Declaration.kindOf e.module.source entry.node = entry.variant.declares) :
    Reads e.module.source (entries.flatMap (Entry.lineNodes e.module.source))
      (e.linesOf emit entries).result (entries.map (Entry.shownLine e.module.source)) := by
  induction entries with
  | nil => exact .ok e.module.source []
  | cons entry rest ih =>
    obtain ⟨hkind, hrest⟩ := List.forall_mem_cons.mp hkinds
    have hnone : Reads e.module.source [] (emit (entry.shownLine e.module.source)).result () := by
      rw [hemit]
      exact .ok e.module.source ()
    rw [List.flatMap_cons, List.map_cons]
    exact (reads_line e hkind).andThen (hnone.andThen_both (ih hrest) fun _ others => _ :: others)

/-- **The lines of a module**, whatever is done with each as soon as it is known. -/
theorem reads_lines (hemit : ∀ line, (emit line).result = .ok ()) :
    Reads e.module.source e.module.shownNodes (e.lines emit).result
      (e.module.documented.map (Entry.shownLine e.module.source)) :=
  (reads_entries e).andThen
    (reads_linesOf e hemit e.module.documented fun _ => Module.kindOf_of_mem_documented)

/-- What is printed of the lines as they become known does not stand in their way. -/
private theorem exists_lines_iff (hemit : ∀ line, (emit line).result = .ok ()) :
    (∃ lines, (e.lines emit).result = .ok lines) ↔
      ∀ n ∈ e.module.shownNodes, n.Decodes e.module.source :=
  (reads_lines e hemit).exists_ok_iff

/-- The paths of a module entry are not empty. -/
structure HasPaths : Prop where
  path : e.module.path ≠ ""
  outputs : ∀ output ∈ e.outputs, output ≠ ""

private theorem exists_name_iff : (∃ name, e.name d = .ok name) ↔ e.module.path ≠ "" := by
  rw [name, Disk.relative, Path.exists_relative_iff]

private theorem exists_title_iff : (∃ title, e.title d = .ok title) ↔ e.module.path ≠ "" := by
  rw [← exists_name_iff d, title]
  constructor
  · rintro ⟨_, h⟩
    obtain ⟨name, hname, -⟩ := Except.map_eq_ok_iff.mp h
    exact ⟨name, hname⟩
  · rintro ⟨name, hname⟩
    exact ⟨_, Except.map_eq_ok_iff.mpr ⟨name, hname, rfl⟩⟩

private theorem exists_outputs_iff :
    (∃ outputs, (e.outputs.mapM fun path => d.relative path e.root) = .ok outputs) ↔
      ∀ output ∈ e.outputs, output ≠ "" := by
  rw [Except.exists_mapM_eq_ok_iff]
  exact forall₂_congr fun _ _ => Path.exists_relative_iff

/-- **A module can be described** when it has paths and what its listing reads can be read. -/
theorem exists_describe_iff :
    (∃ described, (e.describe d).result = .ok described) ↔
      e.HasPaths ∧ ∀ n ∈ e.module.shownNodes, n.Decodes e.module.source := by
  have hlines : (∃ lines, (e.lines fun _ => .ok ()).result = .ok lines) ↔
      ∀ n ∈ e.module.shownNodes, n.Decodes e.module.source := exists_lines_iff e fun _ => rfl
  simp only [describe, Outcome.bind_eq, Outcome.pure_eq, Outcome.result_andThen_eq_ok_iff,
    Outcome.result_ofPath, Except.mapError_eq_ok_iff, Outcome.result_ok, Except.ok.injEq]
  constructor
  · rintro ⟨_, name, hname, title, -, outputs, houtputs, lines, hread, -⟩
    have hpaths : e.HasPaths :=
      ⟨(exists_name_iff d e).mp ⟨name, hname⟩, (exists_outputs_iff d e).mp ⟨outputs, houtputs⟩⟩
    exact ⟨hpaths, hlines.mp ⟨lines, hread⟩⟩
  · rintro ⟨⟨hpath, houtputs⟩, hnodes⟩
    obtain ⟨name, hname⟩ := (exists_name_iff d e).mpr hpath
    obtain ⟨title, htitle⟩ := (exists_title_iff d e).mpr hpath
    obtain ⟨outputs, houtputs⟩ := (exists_outputs_iff d e).mpr houtputs
    obtain ⟨lines, hread⟩ := hlines.mpr hnodes
    exact ⟨_, name, hname, title, htitle, outputs, houtputs, lines, hread, rfl⟩

/-- The text of a listing needs no path. -/
theorem exists_printText_iff (label : String) :
    (∃ stats, (e.printText label).result = .ok stats) ↔
      ∀ n ∈ e.module.shownNodes, n.Decodes e.module.source := by
  have hlines : (∃ lines, (e.lines fun line => .printEach line.texts).result = .ok lines) ↔
      ∀ n ∈ e.module.shownNodes, n.Decodes e.module.source := exists_lines_iff e fun _ => rfl
  rw [← hlines]
  simp only [printText, Outcome.bind_eq, Outcome.pure_eq, Outcome.result_andThen_eq_ok_iff,
    Outcome.result_ok, Except.ok.injEq]
  constructor
  · rintro ⟨_, _, -, lines, hread, -⟩
    exact ⟨lines, hread⟩
  · rintro ⟨lines, hread⟩
    exact ⟨_, (), rfl, lines, hread, rfl⟩

private theorem exists_printJson_iff :
    (∃ stats, (e.printJson d).result = .ok stats) ↔
      e.HasPaths ∧ ∀ n ∈ e.module.shownNodes, n.Decodes e.module.source := by
  rw [← exists_describe_iff d e]
  simp only [printJson, Outcome.bind_eq, Outcome.pure_eq, Outcome.result_andThen_eq_ok_iff,
    Outcome.result_ok, Except.ok.injEq]
  constructor
  · rintro ⟨_, described, hdescribed, -⟩
    exact ⟨described, hdescribed⟩
  · rintro ⟨described, hdescribed⟩
    exact ⟨_, described, hdescribed, (), rfl, rfl⟩

/-- Everything that is asked of the entry of a module gives something, down to what its entries
own, and so do its description and its listing in either form. -/
structure Evaluates : Prop where
  name : ∃ name, e.name d = .ok name
  title : ∃ title, e.title d = .ok title
  entries : ∃ entries, e.entries.result = .ok entries ∧
    ∀ entry ∈ entries, entry.Evaluates e.module.source
  describe : ∃ described, (e.describe d).result = .ok described
  print : ∀ asJson label, ∃ stats, (e.print d asJson label).result = .ok stats

/-- **A damaged tree is no obstacle**: whatever tree stands over the source, everything that is
asked of a module gives something exactly when the module has paths and the texts that its listing
reads are UTF-8. In a source of plain ASCII bytes all texts are. -/
theorem evaluates_iff :
    (e.Evaluates d ↔
      e.HasPaths ∧ ∀ n ∈ e.module.shownNodes, n.Decodes e.module.source) ∧
    ((∀ b ∈ e.module.source, b.toNat < 0x80) → (e.Evaluates d ↔ e.HasPaths)) := by
  have hiff : e.Evaluates d ↔
      e.HasPaths ∧ ∀ n ∈ e.module.shownNodes, n.Decodes e.module.source := by
    constructor
    · intro h
      exact (exists_describe_iff d e).mp h.describe
    · rintro ⟨hpaths, hnodes⟩
      obtain ⟨hentries, hlines⟩ := List.forall_mem_append.mp hnodes
      refine ⟨(exists_name_iff d e).mpr hpaths.path, (exists_title_iff d e).mpr hpaths.path,
        ⟨_, (reads_entries e).eq_ok hentries, fun entry hentry => ?_⟩,
        (exists_describe_iff d e).mpr ⟨hpaths, hnodes⟩, fun asJson label => ?_⟩
      · exact Entry.evaluates_of_lineNodes e.module.source
          (Module.kindOf_of_mem_documented hentry)
          fun n hn => hlines n (List.mem_flatMap.mpr ⟨entry, hentry, hn⟩)
      · cases asJson with
        | false => exact (exists_printText_iff e label).mpr hnodes
        | true => exact (exists_printJson_iff d e).mpr ⟨hpaths, hnodes⟩
  refine ⟨hiff, fun hascii => hiff.trans ⟨And.left, fun hpaths => ⟨hpaths, fun n _ => ?_⟩⟩⟩
  exact Node.decodes_of_ascii hascii n

end ModuleEntry

end ApiOutline
