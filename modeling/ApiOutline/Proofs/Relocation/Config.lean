import ApiOutline.Project.Basic
import ApiOutline.Proofs.Config.Circles
import ApiOutline.Proofs.Relocation.Agreement

/-!
# Configurations of copies

The compiler's configuration of a package is loaded from its files, which are the same in a copy.
What is loaded is not the same, since the paths of options become absolute, but it corresponds:
every setting and every option is the same in both places, or names the same place below the one
folder and below the other (`alike_loadChain`).

This rests on what the files may say. A file is `Contained` when its paths stay inside the package
and its entries of `extends` begin with a point. An entry that names the package folder itself is
not contained, since the loader adds `.json` to it and so looks beside the folder.
-/

namespace ApiOutline

open ApiOutline.Path (IsStep IsName Folder Inside within? goal?)

/-! ### Objects field by field -/

namespace Json

/-- Two objects with distinct names have corresponding values under every name. -/
structure Fields.Match (R : String → Json → Json → Prop) (fields fields' : Fields) : Prop where
  left : fields.Distinct
  right : fields'.Distinct
  get : ∀ name, Option.Rel (R name) (fields.get? name) (fields'.get? name)

namespace Fields.Match

variable {R : String → Json → Json → Prop} {fields fields' : Fields}

theorem nil : Fields.Match R [] [] :=
  ⟨.nil, .nil, fun _ => .none⟩

theorem put (h : Fields.Match R fields fields') {name : String} {value value' : Json}
    (hvalue : R name value value') :
    Fields.Match R (fields.put name value) (fields'.put name value') := by
  refine ⟨h.left.put _ _, h.right.put _ _, fun other => ?_⟩
  rw [Fields.get?_put, Fields.get?_put]
  split_ifs with hother
  · exact hother ▸ .some hvalue
  · exact h.get other

theorem without (h : Fields.Match R fields fields') (name : String) :
    Fields.Match R (fields.without name) (fields'.without name) := by
  refine ⟨h.left.without _, h.right.without _, fun other => ?_⟩
  rw [Fields.get?_without, Fields.get?_without]
  split_ifs
  · exact .none
  · exact h.get other

theorem putAll (h : Fields.Match R fields fields') {extra extra' : Fields}
    (hextra : Fields.Match R extra extra') :
    Fields.Match R (fields.putAll extra) (fields'.putAll extra') := by
  refine ⟨h.left.putAll _, h.right.putAll _, fun name => ?_⟩
  rw [Fields.get?_putAll hextra.left, Fields.get?_putAll hextra.right]
  have hvalue := hextra.get name
  generalize extra.get? name = value at hvalue ⊢
  generalize extra'.get? name = value' at hvalue ⊢
  cases hvalue with
  | some hvalue => exact .some hvalue
  | none => exact h.get name

end Fields.Match

end Json

namespace Config

open Json (Fields)

/-! ### Files whose paths stay inside -/

/-- An entry of a list of paths stays inside, and so does a pattern where `**` stands for no
folder. -/
structure EntryInside (key : String) (way : List String) (text : String) : Prop where
  goal : (goal? way text).isSome = true
  pattern : key = "include" →
    (within? way ((Path.segments text).filter (· ≠ "**"))).isSome = true

/-- A file in the folder at the end of `way` holds only paths that stay inside the package, and
extends others by entries that begin with a point and name something below the package folder. -/
structure Contained (way : List String) (config : Fields) : Prop where
  bases : ∀ names ∈ (config.get? "extends").bind baseNames, ∀ name ∈ names,
    Text.startsWith name "." = true ∧ ∃ goal ∈ goal? way name, goal ≠ []
  options : ∀ name ∈ pathOptions, ∀ text ∈ (option? config name).bind Json.asStr?, text ≠ "" →
    (goal? way text).isSome = true
  lists : ∀ key ∈ pathLists, ∀ entry ∈ (Project.listSetting config key).getD [],
    EntryInside key way entry.text

instance (key : String) (way : List String) (text : String) :
    Decidable (EntryInside key way text) :=
  decidable_of_iff ((goal? way text).isSome = true ∧ (key = "include" →
      (within? way ((Path.segments text).filter (· ≠ "**"))).isSome = true))
    ⟨fun ⟨hgoal, hpattern⟩ => ⟨hgoal, hpattern⟩, fun h => ⟨h.goal, h.pattern⟩⟩

instance (way : List String) (config : Fields) : Decidable (Contained way config) :=
  decidable_of_iff
    ((∀ names ∈ (config.get? "extends").bind baseNames, ∀ name ∈ names,
        Text.startsWith name "." = true ∧ ∃ goal ∈ goal? way name, goal ≠ []) ∧
      (∀ name ∈ pathOptions, ∀ text ∈ (option? config name).bind Json.asStr?, text ≠ "" →
        (goal? way text).isSome = true) ∧
      ∀ key ∈ pathLists, ∀ entry ∈ (Project.listSetting config key).getD [],
        EntryInside key way entry.text)
    ⟨fun ⟨hbases, hoptions, hlists⟩ => ⟨hbases, hoptions, hlists⟩,
      fun h => ⟨h.bases, h.options, h.lists⟩⟩

/-- All files that the configuration of a package is made up from are contained in it. -/
def AllContained (d : Disk) (f : Folder) : Prop :=
  ∀ ⦃chain way name⦄, (∀ n ∈ way ++ [name], IsName n) →
    Reached d (f.path ["tsconfig.json"]) chain (f.path (way ++ [name])) →
    Contained way (settings d (f.path (way ++ [name])))

/-! ### Values that correspond -/

/-- An option has the same value in both places, or names the same place below the folders. -/
inductive OptionMatch (f f' : Folder) (name : String) : Json → Json → Prop
  | same {value : Json} (h : name ∈ pathOptions → ∀ text, value = .str text → text = "") :
    OptionMatch f f' name value value
  | path {way : List String} (hname : name ∈ pathOptions) (hway : ∀ n ∈ way, IsName n) :
    OptionMatch f f' name (.str (f.path way)) (.str (f'.path way))

/-- A setting has the same value in both places, with paths that stay inside if it is a list of
paths, or is the object of options. -/
inductive SettingMatch (f f' : Folder) (key : String) : Json → Json → Prop
  | same {value : Json} (hkey : key = "compilerOptions" → isObject value = false)
    (hlist : key ∈ pathLists → ∀ entries, value = .arr entries →
      ∀ entry ∈ entries, EntryInside key [] entry.text) : SettingMatch f f' key value value
  | options {options options' : Fields} (hkey : key = "compilerOptions")
    (h : Fields.Match (OptionMatch f f') options options') :
    SettingMatch f f' key (.obj options) (.obj options')

variable {d d' : Disk} {f f' : Folder}

/-! ### Merging -/

/-- Unless both files have options, those of the upper file count if it has any. -/
private theorem merge_of_not_both {base child : Fields}
    (h : ∀ options options', base.get? "compilerOptions" = some (.obj options) →
      child.get? "compilerOptions" ≠ some (.obj options')) :
    merge base child =
      match child.get? "compilerOptions" with
      | none | some .null => base.putAll (child.without "compilerOptions")
      | some options =>
        (base.putAll (child.without "compilerOptions")).put "compilerOptions" options := by
  rw [merge]
  split
  · next hb hc => exact absurd hc (h _ _ hb)
  · next hc => rw [hc]
  · next hc => rw [hc]
  · next value hnull hc _ =>
    rw [hc]
    cases value with
    | null => exact absurd rfl hnull
    | _ => rfl

/-- **Merging** keeps the correspondence. -/
theorem match_merge {base base' child child' : Fields}
    (hbase : Fields.Match (SettingMatch f f') base base')
    (hchild : Fields.Match (SettingMatch f f') child child') :
    Fields.Match (SettingMatch f f') (merge base child) (merge base' child') := by
  have hmerged := hbase.putAll (hchild.without "compilerOptions")
  have hb := hbase.get "compilerOptions"
  have hc := hchild.get "compilerOptions"
  generalize hbl : base.get? "compilerOptions" = b at hb
  generalize hbr : base'.get? "compilerOptions" = b' at hb
  generalize hcl : child.get? "compilerOptions" = c at hc
  generalize hcr : child'.get? "compilerOptions" = c' at hc
  cases hc with
  | none =>
    rw [merge_of_not_both (by simp [hcl]), merge_of_not_both (by simp [hcr]), hcl, hcr]
    exact hmerged
  | @some value value' hc =>
    cases hc with
    | same hkey hlist =>
      have hvalue : ∀ options, value ≠ .obj options := by
        rintro options rfl
        cases hkey rfl
      rw [merge_of_not_both (by simp [hcl, hvalue]), merge_of_not_both (by simp [hcr, hvalue]), hcl,
        hcr]
      cases value with
      | null => exact hmerged
      | _ => exact hmerged.put (.same hkey hlist)
    | options hkey hoptions =>
      cases hb with
      | none =>
        rw [merge_of_not_both (by simp [hbl]), merge_of_not_both (by simp [hbr]), hcl, hcr]
        exact hmerged.put (.options hkey hoptions)
      | @some value value' hb =>
        cases hb with
        | same hkey' hlist =>
          have hvalue : ∀ options, value ≠ .obj options := by
            rintro options rfl
            cases hkey' rfl
          rw [merge_of_not_both (by simp [hbl, hvalue]), merge_of_not_both (by simp [hbr, hvalue]),
            hcl, hcr]
          exact hmerged.put (.options hkey hoptions)
        | options hkey' hbase =>
          rw [merge, merge, hbl, hbr, hcl, hcr]
          exact hmerged.put (.options hkey (hbase.putAll hoptions))

/-! ### Anchoring -/

/-- What is written from a way that stays inside does so, too. -/
private theorem EntryInside.of_wayText (key : String) {way : List String}
    (h : ∀ n ∈ way, IsName n) :
    EntryInside key [] (Path.Folder.wayText way) := by
  have hgoal := Path.Folder.goal?_wayText h []
  obtain ⟨-, hwithin⟩ := Path.goal?_eq_some_iff.mp hgoal
  refine ⟨by rw [hgoal]; rfl, fun _ => ?_⟩
  cases way with
  | nil => decide
  | cons n rest =>
    rw [Path.Folder.wayText, Path.segments_intercalate (List.cons_ne_nil n rest)
        fun s hs => (h s hs).no_slash,
      Path.within?_of_isName fun s hs => h s (List.mem_filter.mp hs).1]
    rfl

/-- An entry of a list of paths, seen from the package folder, does not depend on that folder. -/
private theorem seenFrom_path {way : List String} (hway : ∀ n ∈ way, IsName n) {entry : Json}
    {goal : List String} (h : goal? way entry.text = some goal) (d : Disk) (f : Folder) :
    seenFrom d (f.path way) (f.path []) entry = .str (Path.Folder.wayText goal) := by
  rw [seenFrom, Disk.relative, Path.Folder.relative_join hway h]

variable {way : List String} {config : Fields}

/-- A list of paths that is seen from the package folder is the same in both places. -/
private theorem match_rebased (hway : ∀ n ∈ way, IsName n) {key : String}
    (hkey : key ≠ "compilerOptions")
    {value : Json} (h : ∀ entries, value = .arr entries →
      ∀ entry ∈ entries, EntryInside key way entry.text) :
    SettingMatch f f' key (rebased d (f.path way) (f.path []) value)
      (rebased d' (f'.path way) (f'.path []) value) := by
  cases value with
  | arr entries =>
    have hseen : ∀ entry ∈ entries, ∃ goal, (∀ n ∈ goal, IsName n) ∧
        ∀ (d : Disk) (f : Folder), seenFrom d (f.path way) (f.path []) entry =
          .str (Path.Folder.wayText goal) := by
      intro entry hentry
      obtain ⟨goal, hgoal⟩ := Option.isSome_iff_exists.mp (h entries rfl entry hentry).goal
      exact ⟨goal, Path.isName_of_goal? hway hgoal, fun d f => seenFrom_path hway hgoal d f⟩
    have heq : entries.map (seenFrom d' (f'.path way) (f'.path [])) =
        entries.map (seenFrom d (f.path way) (f.path [])) := by
      refine List.map_congr_left fun entry hentry => ?_
      obtain ⟨goal, -, hgoal⟩ := hseen entry hentry
      rw [hgoal, hgoal]
    rw [rebased, rebased, heq]
    refine .same (fun hoptions => absurd hoptions hkey) fun _ seen heq entry hentry => ?_
    rw [← Json.arr.inj heq] at hentry
    obtain ⟨first, hfirst, rfl⟩ := List.mem_map.mp hentry
    obtain ⟨goal, hnames, hgoal⟩ := hseen first hfirst
    rw [hgoal]
    exact .of_wayText key hnames
  | _ => exact .same (fun hoptions => absurd hoptions hkey) fun _ _ heq => by cases heq

/-- The options that hold paths name the same places. -/
private theorem match_anchorOptions (hway : ∀ n ∈ way, IsName n) {options : Fields}
    (hdistinct : options.Distinct) (h : ∀ name ∈ pathOptions, ∀ text,
      options.get? name = some (.str text) → text ≠ "" → (goal? way text).isSome = true) :
    Fields.Match (OptionMatch f f') (pathOptions.foldl (anchorOption (f.path way)) options)
      (pathOptions.foldl (anchorOption (f'.path way)) options) := by
  refine ⟨distinct_anchorOptions _ _ hdistinct, distinct_anchorOptions _ _ hdistinct,
    fun name => ?_⟩
  rw [get?_anchorOptions _ (by decide), get?_anchorOptions _ (by decide)]
  have htext := h name
  split_ifs with hname
  · cases hvalue : options.get? name with
    | none => exact .none
    | some value =>
      refine .some ?_
      cases value with
      | str text =>
        rw [absoluteFrom, absoluteFrom]
        split_ifs with hempty
        · exact .same fun _ _ heq => (Json.str.inj heq).symm.trans hempty
        · obtain ⟨goal, hgoal⟩ := Option.isSome_iff_exists.mp (htext hname text hvalue hempty)
          rw [f.normalize_join hway hgoal, f'.normalize_join hway hgoal]
          exact .path hname (Path.isName_of_goal? hway hgoal)
      | _ => exact .same fun _ _ heq => by cases heq
  · cases options.get? name with
    | none => exact .none
    | some value => exact .some (.same fun hmem => absurd hmem hname)

private theorem match_anchoredValue (hway : ∀ n ∈ way, IsName n) (h : Contained way config)
    (hdistinct : config.DistinctWithin) {key : String} {value : Json}
    (hvalue : config.get? key = some value) :
    SettingMatch f f' key (anchoredValue d (f.path way) (f.path []) key value)
      (anchoredValue d' (f'.path way) (f'.path []) key value) := by
  rw [anchoredValue.eq_def, anchoredValue.eq_def]
  split_ifs with hkey
  · have hlist : key ∉ pathLists := by rw [hkey]; decide
    cases value with
    | obj options =>
      rw [hkey] at hvalue
      refine .options hkey (match_anchorOptions hway (hdistinct.inner hvalue) ?_)
      intro name hname text htext
      exact h.options name hname text (by rw [option?_of_some hvalue, htext]; rfl)
    | _ => exact .same (fun _ => rfl) fun hmem => absurd hmem hlist
  · -- lists of paths are seen from the package folder, unless the file stands in it
    have hsame (f : Folder) : Path.normalize (f.path way) = Path.normalize (f.path []) ↔
        way = [] := by
      rw [Path.Folder.normalize_of_isName hway, Path.Folder.normalize_of_isName (by simp)]
      exact Path.Folder.path_inj (fun s hs => (hway s hs).toIsStep) (by simp)
    simp only [anchoredSetting, ne_eq, hsame]
    split_ifs with hlist
    · refine match_rebased hway hkey fun entries heq entry hentry => ?_
      exact h.lists key hlist.1 entry (by rwa [Project.listSetting, hvalue, heq])
    · refine .same (fun hoptions => absurd hoptions hkey) fun hmem entries heq entry hentry => ?_
      have hnil : way = [] := by
        by_contra hne
        exact hlist ⟨hmem, hne⟩
      rw [← hnil]
      exact h.lists key hmem entry (by rwa [Project.listSetting, hvalue, heq])

/-- **Anchoring** makes settings of one file that correspond. -/
theorem exists_match_anchor (hway : ∀ n ∈ way, IsName n) (h : Contained way config)
    (hdistinct : config.DistinctWithin) :
    ∃ anchored anchored', anchor d config (f.path way) (f.path []) = .ok anchored ∧
      anchor d' config (f'.path way) (f'.path []) = .ok anchored' ∧
      Fields.Match (SettingMatch f f') anchored anchored' := by
  obtain ⟨anchored, hleft, hleftDistinct, hget⟩ :=
    exists_anchor_values (d := d) (f.isAbsolute_path way) (f.path []) hdistinct.names
  obtain ⟨anchored', hright, hrightDistinct, hget'⟩ :=
    exists_anchor_values (d := d') (f'.isAbsolute_path way) (f'.path []) hdistinct.names
  refine ⟨anchored, anchored', hleft, hright, hleftDistinct, hrightDistinct, fun key => ?_⟩
  rw [hget, hget']
  cases hvalue : config.get? key with
  | none => exact .none
  | some value => exact .some (match_anchoredValue hway h hdistinct hvalue)

/-! ### Finding a base -/

/-- The paths that a base may have below the package folder. -/
private theorem exists_baseCandidates (hway : ∀ n ∈ way, IsName n) {name : String}
    (hpoint : Text.startsWith name "." = true) {goal : List String} (hne : goal ≠ [])
    (hgoal : goal? way name = some goal) :
    ∃ goals : List (List String), (∀ goal ∈ goals, goal ≠ [] ∧ ∀ n ∈ goal, IsName n) ∧
      ∀ f : Folder, baseCandidates name (f.path way) = goals.map f.path := by
  have hnames := Path.isName_of_goal? hway hgoal
  rcases List.eq_nil_or_concat' goal with rfl | ⟨init, last, rfl⟩
  · exact absurd rfl hne
  obtain ⟨hinit, hlast⟩ := List.forall_mem_append.mp hnames
  have hjson : IsName (last ++ ".json") :=
    Path.isName_append (hlast last (List.mem_singleton_self last)) (by decide) (by decide)
  -- whether `.json` is added is told by the last name
  refine ⟨if Text.endsWith last ".json" then [init ++ [last]]
    else [init ++ [last], init ++ [last ++ ".json"]], fun goal hmem => ?_, fun f => ?_⟩
  · split_ifs at hmem
    · rw [List.mem_singleton.mp hmem]
      exact ⟨hne, hnames⟩
    · rcases List.mem_pair.mp hmem with rfl | rfl
      · exact ⟨hne, hnames⟩
      · exact ⟨by simp, List.forall_mem_append.mpr ⟨hinit, by simpa using hjson⟩⟩
  · rw [baseCandidates, if_pos (by simp [hpoint])]
    dsimp only
    rw [f.normalize_join hway hgoal, f.endsWith_path init (by decide), f.path_append_last]
    split_ifs <;> rfl

/-- **A base** is found at corresponding places. -/
theorem exists_resolveBase (h : d.Copies f d' f') (hway : ∀ n ∈ way, IsName n) {name : String}
    (hpoint : Text.startsWith name "." = true) {goal : List String} (hne : goal ≠ [])
    (hgoal : goal? way name = some goal) :
    resolveBase d name (f.path way) = none ∧ resolveBase d' name (f'.path way) = none ∨
      ∃ base, base ≠ [] ∧ (∀ n ∈ base, IsName n) ∧
        resolveBase d name (f.path way) = some (f.path base) ∧
        resolveBase d' name (f'.path way) = some (f'.path base) := by
  obtain ⟨goals, hgoals, hcandidates⟩ := exists_baseCandidates hway hpoint hne hgoal
  rw [resolveBase, resolveBase, hcandidates, hcandidates, List.find?_map, List.find?_map]
  have heq : goals.find? (d'.isFile ∘ f'.path) = goals.find? (d.isFile ∘ f.path) := by
    rw [← List.head?_filter, ← List.head?_filter]
    exact congrArg List.head? (List.filter_congr fun goal hgoal =>
      (h.isFile_eq (hgoals goal hgoal).2).symm)
  rw [heq]
  cases hfind : goals.find? (d.isFile ∘ f.path) with
  | none => exact .inl ⟨rfl, rfl⟩
  | some base =>
    obtain ⟨hne, hnames⟩ := hgoals base (List.mem_of_find?_eq_some hfind)
    exact .inr ⟨base, hne, hnames, rfl, rfl⟩

/-! ### Loading -/

private theorem alike_parse (room : Nat) (path path' text : String) (strict comments : Bool) :
    Alike Failure.IsTooLong Eq (parse room path text strict comments).result
      (parse room path' text strict comments).result := by
  simp only [parse]
  generalize (if comments = true then Json.stripComments text else text) = plain
  split_ifs
  · exact Outcome.alike_settle strict _ _ rfl
  · split
    · exact .ok rfl
    · exact Outcome.alike_settle strict _ _ rfl
    · exact Outcome.alike_settle strict _ _ rfl
    · exact .error _ _

/-- **A file** is loaded alike from both places. -/
theorem alike_loadWithin (h : d.Copies f d' f') {steps : List String} (hsteps : Inside steps)
    (room : Nat) (strict comments : Bool) :
    Alike Failure.IsTooLong Eq (loadWithin room d (f.path steps) strict comments).result
      (loadWithin room d' (f'.path steps) strict comments).result := by
  have hlate {d : Disk} {path : String} (hfind : d.find path = .error .nameTooLong) :
      ∃ e, (loadWithin room d path strict comments).result = .error e ∧ e.IsTooLong := by
    rw [loadWithin, Disk.read, hfind]
    exact ⟨_, rfl, rfl⟩
  refine h.alike_of_find hsteps (fun heq => ?_) hlate hlate
  rw [loadWithin, loadWithin, Disk.read, Disk.read, heq]
  rcases d'.find (f'.path steps) with cause | item
  · cases cause with
    | notFound => exact Outcome.alike_settle strict _ _ rfl
    | _ => exact .error _ _
  · cases item with
    | file contents =>
      dsimp only
      split
      · exact .error _ _
      · exact alike_parse room _ _ _ strict comments
    | _ => exact .error _ _

/-- Bases that are found at corresponding places and load alike are merged alike. -/
private theorem alike_foldlM_bases (h : d.Copies f d' f') (hway : ∀ n ∈ way, IsName n)
    (strict : Bool)
    {root root' file file' : String} {fuel : Nat} {chain chain' : List String}
    {names : List String} (hnames : ∀ name ∈ names,
      Text.startsWith name "." = true ∧ ∃ goal ∈ goal? way name, goal ≠ [])
    (hlevel : ∀ name ∈ names, ∀ base, base ≠ [] → (∀ n ∈ base, IsName n) →
      resolveBase d name (f.path way) = some (f.path base) →
      Alike Failure.IsTooLong (Fields.Match (SettingMatch f f'))
        (loadLevel d root strict fuel chain (f.path base)).result
        (loadLevel d' root' strict fuel chain' (f'.path base)).result) :
    Alike Failure.IsTooLong (Fields.Match (SettingMatch f f'))
      (names.foldlM (fun merged name =>
        match resolveBase d name (f.path way) with
        | none => Outcome.settle strict (.baseNotFound name file) merged
        | some base => do
          return merge merged (← loadLevel d root strict fuel chain base)) []).result
      (names.foldlM (fun merged name =>
        match resolveBase d' name (f'.path way) with
        | none => Outcome.settle strict (.baseNotFound name file') merged
        | some base => do
          return merge merged (← loadLevel d' root' strict fuel chain' base)) []).result := by
  rw [Outcome.result_foldlM, Outcome.result_foldlM]
  refine Alike.foldlM (fun name hname merged merged' hmerged => ?_) .nil
  obtain ⟨hpoint, goal, hgoal, hne⟩ := hnames name hname
  rcases exists_resolveBase h hway hpoint hne hgoal with
    ⟨hleft, hright⟩ | ⟨base, hbase, hbaseNames, hleft, hright⟩
  · rw [hleft, hright]
    exact Outcome.alike_settle strict _ _ hmerged
  · rw [hleft, hright]
    dsimp only
    rw [Outcome.bind_eq, Outcome.bind_eq, Outcome.result_andThen, Outcome.result_andThen]
    refine (hlevel name hname base hbase hbaseNames hleft).bind fun below below' _ hbelow => ?_
    exact .ok (match_merge hmerged hbelow)

/-- One level of loading gives settings that correspond, if every level right below it does. -/
private theorem alike_loadLevel_succ (h : d.Copies f d' f') (hcontained : AllContained d f)
    (strict : Bool)
    {fuel : Nat} {chain : List (List String)} (hchain : ∀ file ∈ chain, ∀ n ∈ file, IsName n)
    {way : List String} {name : String} (hfile : ∀ n ∈ way ++ [name], IsName n)
    (hreached : Reached d (f.path ["tsconfig.json"]) (chain.map f.path) (f.path (way ++ [name])))
    (hlevel : ∀ base, base ≠ [] → (∀ n ∈ base, IsName n) →
      Reached d (f.path ["tsconfig.json"]) (((way ++ [name]) :: chain).map f.path) (f.path base) →
      Alike Failure.IsTooLong (Fields.Match (SettingMatch f f'))
        (loadLevel d (f.path []) strict fuel (((way ++ [name]) :: chain).map f.path)
          (f.path base)).result
        (loadLevel d' (f'.path []) strict fuel (((way ++ [name]) :: chain).map f'.path)
          (f'.path base)).result) :
    Alike Failure.IsTooLong (Fields.Match (SettingMatch f f'))
      (loadLevel d (f.path []) strict (fuel + 1) (chain.map f.path) (f.path (way ++ [name]))).result
      (loadLevel d' (f'.path []) strict (fuel + 1) (chain.map f'.path)
        (f'.path (way ++ [name]))).result := by
  have hsteps : ∀ s ∈ way ++ [name], IsStep s := fun s hs => (hfile s hs).toIsStep
  obtain ⟨hway, hname⟩ := List.forall_mem_append.mp hfile
  have hname : IsName name := hname name (List.mem_singleton_self name)
  have hcontains (f : Folder) : (chain.map f.path).contains (f.path (way ++ [name])) =
      chain.contains (way ++ [name]) :=
    Path.Folder.contains_map_path (fun file hmem s hs => (hchain file hmem s hs).toIsStep) hsteps
  have hdir (f : Folder) : Path.dirname (f.path (way ++ [name])) = f.path way :=
    Path.Folder.dirname_path (fun s hs => (hway s hs).toIsStep) hname.toIsStep
  rw [loadLevel, loadLevel, hcontains f, hcontains f', hdir f, hdir f', ← h.limits,
    List.length_map, List.length_map]
  split_ifs with hfresh
  · exact Outcome.alike_settle strict _ _ .nil
  rw [Outcome.bind_eq, Outcome.bind_eq, Outcome.result_andThen, Outcome.result_andThen]
  refine (alike_loadWithin h (.of_isName hfile) (d.limits.nestingBelow chain.length) strict
    true).bind ?_
  rintro config _ hload rfl
  split_ifs with hempty
  · exact .ok .nil
  have hsettings := settings_of_loadWithin_strict (d.limits.nestingBelow_le _) hload
  have hinside := hcontained hfile hreached
  rw [hsettings] at hinside
  obtain ⟨anchored, anchored', hleft, hright, hmatch⟩ : ∃ anchored anchored',
      anchor d config (f.path way) (f.path []) = .ok anchored ∧
      anchor d' config (f'.path way) (f'.path []) = .ok anchored' ∧
      Fields.Match (SettingMatch f f') anchored anchored' :=
    exists_match_anchor hway hinside (distinct_of_loadWithin hload)
  have hown := hmatch.without "extends"
  rw [Outcome.bind_eq, Outcome.bind_eq, hleft, hright]
  change Alike _ _ (Outcome.andThen (.ok anchored) _).result
    (Outcome.andThen (.ok anchored') _).result
  rw [Outcome.ok_andThen, Outcome.ok_andThen]
  dsimp only
  rw [get?_extends_of_anchor hleft, get?_extends_of_anchor hright]
  cases hvalue : config.get? "extends" with
  | none => exact .ok hown
  | some value =>
    cases hnames : baseNames value with
    | none =>
      -- a value without the meant form is settled, but for `null`
      cases value with
      | null => exact .ok hown
      | _ =>
        dsimp only
        rw [hnames]
        exact Outcome.alike_settle strict _ _ hown
    | some names =>
      have hbases := hinside.bases names (by rw [hvalue, Option.bind_some, hnames]; rfl)
      -- every base that is found is one file further down the chain
      have hdeeper : ∀ other ∈ names, ∀ base,
          resolveBase d other (f.path way) = some (f.path base) →
          Reached d (f.path ["tsconfig.json"]) (((way ++ [name]) :: chain).map f.path)
            (f.path base) := by
        intro other hother base hresolve
        refine .base hreached ?_ ?_
        · rw [← List.contains_iff_mem, hcontains f]
          exact hfresh
        · rw [bases, hsettings, hvalue, Option.bind_some, hnames, Option.getD_some, hdir f]
          exact List.mem_filterMap.mpr ⟨other, hother, hresolve⟩
      cases value with
      | str _ | arr _ =>
        dsimp only
        rw [hnames]
        dsimp only
        rw [Outcome.bind_eq, Outcome.bind_eq, Outcome.result_andThen, Outcome.result_andThen]
        refine (alike_foldlM_bases h hway strict hbases fun other hother base hne hbase hresolve =>
          hlevel base hne hbase (hdeeper other hother base hresolve)).bind ?_
        exact fun merged merged' _ hmerged => .ok (match_merge hmerged hown)
      | _ => cases hnames

/-- **Every level** of loading gives settings that correspond. -/
theorem alike_loadLevel (h : d.Copies f d' f') (hcontained : AllContained d f) (strict : Bool)
    {fuel : Nat} {chain : List (List String)} (hchain : ∀ file ∈ chain, ∀ n ∈ file, IsName n)
    {way : List String} {name : String} (hfile : ∀ n ∈ way ++ [name], IsName n)
    (hreached : Reached d (f.path ["tsconfig.json"]) (chain.map f.path) (f.path (way ++ [name]))) :
    Alike Failure.IsTooLong (Fields.Match (SettingMatch f f'))
      (loadLevel d (f.path []) strict fuel (chain.map f.path) (f.path (way ++ [name]))).result
      (loadLevel d' (f'.path []) strict fuel (chain.map f'.path)
        (f'.path (way ++ [name]))).result := by
  induction fuel generalizing chain way name with
  | zero => exact .error _ _
  | succ fuel ih =>
    refine alike_loadLevel_succ h hcontained strict hchain hfile hreached
      fun base hne hbase hdeeper => ?_
    obtain rfl | ⟨init, last, rfl⟩ := List.eq_nil_or_concat' base
    · exact absurd rfl hne
    · exact ih (List.forall_mem_cons.mpr ⟨hfile, hchain⟩) hbase hdeeper

/-- **The configuration of a package** and that of its copy correspond. -/
theorem alike_loadChain (h : d.Copies f d' f') (hcontained : AllContained d f) (strict : Bool) :
    Alike Failure.IsTooLong (Fields.Match (SettingMatch f f'))
      (loadChain d (f.path ["tsconfig.json"]) strict).result
      (loadChain d' (f'.path ["tsconfig.json"]) strict).result := by
  have hname : IsName "tsconfig.json" := by decide
  have hfile : ∀ n ∈ [] ++ ["tsconfig.json"], IsName n := by simpa using hname
  have hstart (f : Folder) (d : Disk) : d.absolute (f.path ["tsconfig.json"]) =
      f.path ["tsconfig.json"] := Path.Folder.absolute_of_isName hfile d.cwd
  have hdir (f : Folder) : Path.dirname (f.path ["tsconfig.json"]) = f.path [] :=
    Path.Folder.dirname_path (List.forall_mem_nil _) hname.toIsStep
  have hchain : ∀ file ∈ ([] : List (List String)), ∀ n ∈ file, IsName n := by simp
  rw [loadChain, loadChain, hstart, hstart, hdir, hdir, ← h.limits]
  exact alike_loadLevel h hcontained strict hchain hfile .start

end Config

end ApiOutline
