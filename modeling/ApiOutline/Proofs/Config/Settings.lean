import ApiOutline.Config.Extends
import ApiOutline.Proofs.Json.Fields
import ApiOutline.Proofs.Path.Names

/-!
# What one file sets

The settings of one configuration file are anchored before they are merged with those of others:
the paths of options become absolute, and the entries of lists of paths are seen from the folder of
the first file. Anchoring is described here field by field (`Anchored`, `exists_anchor`), with
values that do not mention how the fields are gone through, and so is merging (`Merged`,
`merged_merge`): a setting is that of the upper file or else of the lower one, and so is every
single option of the compiler.

Anchoring an entry fails only for the empty path, which no entry gives once it is joined to the
folder of an absolute path; that is why the folder is asked to be absolute throughout.
-/

namespace ApiOutline

namespace Config

open Json (Fields)

/-! ### Anchored values -/

/-- The value of an option that holds a path, as the folder `dir` means it. -/
def absoluteFrom (dir : String) : Json → Json
  | .str value => if value = "" then .str value else .str (Path.normalize (Path.join dir value))
  | value => value

/-- An entry of a list of paths in the folder `dir`, seen from the folder `root`. -/
def seenFrom (d : Disk) (dir root : String) (entry : Json) : Json :=
  match d.relative (Path.join dir entry.text) root with
  | .ok way => .str way
  | .error _ => entry

/-- A setting that is a list of paths in the folder `dir`, seen from the folder `root`. -/
def rebased (d : Disk) (dir root : String) : Json → Json
  | .arr entries => .arr (entries.map (seenFrom d dir root))
  | value => value

/-- The value of one option of the compiler. -/
def option? (config : Fields) (name : String) : Option Json :=
  match config.get? "compilerOptions" with
  | some (.obj options) => Fields.get? options name
  | _ => none

/-- Whether a value is an object. -/
def isObject : Json → Bool
  | .obj _ => true
  | _ => false

/-! ### Anchoring -/

private theorem get?_anchorOption (dir : String) (options : Fields) (name other : String) :
    (anchorOption dir options name).get? other =
      if other = name then (options.get? other).map (absoluteFrom dir) else options.get? other := by
  rw [anchorOption]
  split
  · next value hvalue =>
    split_ifs with hempty hname hname
    · subst hname hempty
      rw [hvalue]
      rfl
    · rfl
    · subst hname
      rw [Fields.get?_put, if_pos rfl, hvalue, Option.map_some, absoluteFrom, if_neg hempty]
    · rw [Fields.get?_put, if_neg hname]
  · next hvalue =>
    split_ifs with hname
    · subst hname
      cases hget : options.get? other with
      | none => rfl
      | some value =>
        cases value with
        | str text => exact absurd hget (hvalue text)
        | _ => rfl
    · rfl

private theorem distinct_anchorOption {options : Fields} (h : options.Distinct)
    (dir name : String) :
    (anchorOption dir options name).Distinct := by
  rw [anchorOption]
  split
  · split_ifs
    · exact h
    · exact h.put _ _
  · exact h

/-- Options are anchored one after the other, each once. -/
theorem get?_anchorOptions (dir : String) {names : List String} (hnames : names.Nodup)
    (options : Fields) (other : String) :
    (names.foldl (anchorOption dir) options).get? other =
      if other ∈ names then (options.get? other).map (absoluteFrom dir)
      else options.get? other := by
  induction names generalizing options with
  | nil => simp
  | cons name rest ih =>
    obtain ⟨hfresh, hrest⟩ := List.nodup_cons.mp hnames
    rw [List.foldl_cons, ih hrest, get?_anchorOption]
    by_cases hname : other = name
    · subst hname
      simp [hfresh]
    · simp [hname]

theorem distinct_anchorOptions (dir : String) (names : List String) {options : Fields}
    (h : options.Distinct) : (names.foldl (anchorOption dir) options).Distinct := by
  induction names generalizing options with
  | nil => exact h
  | cons name rest ih => exact ih (distinct_anchorOption h dir name)

variable {d : Disk} {dir : String}

private theorem anchorEntries_eq_ok (hdir : Path.isAbsolute dir = true) (root : String)
    (entries : List Json) :
    anchorEntries d dir root entries = .ok (entries.map (seenFrom d dir root)) := by
  rw [anchorEntries]
  induction entries with
  | nil => rfl
  | cons entry rest ih =>
    obtain ⟨way, hway⟩ : ∃ way, d.relative (Path.join dir entry.text) root = .ok way :=
      Path.exists_relative_iff.mpr
        (Path.ne_empty_of_isAbsolute (Path.isAbsolute_join hdir entry.text))
    rw [List.mapM_cons, ih, List.map_cons, seenFrom, hway]
    rfl

/-- One list of paths: it is seen from `root` when it is a list, and all other settings stay. -/
private theorem exists_anchorList (hdir : Path.isAbsolute dir = true) (root name : String)
    {config : Fields} (hconfig : config.Distinct) :
    ∃ next, anchorList d dir root config name = .ok next ∧ next.Distinct ∧
      ∀ other, next.get? other =
        if other = name then (config.get? other).map (rebased d dir root)
        else config.get? other := by
  rw [anchorList]
  split
  · next entries hentries =>
    refine ⟨_, by rw [anchorEntries_eq_ok hdir]; rfl, hconfig.put _ _, fun other => ?_⟩
    rw [Fields.get?_put]
    split_ifs with hother
    · rw [hother, hentries]
      rfl
    · rfl
  · next hentries =>
    refine ⟨config, rfl, hconfig, fun other => ?_⟩
    split_ifs with hother
    · subst hother
      cases hvalue : config.get? other with
      | none => rfl
      | some value =>
        cases value with
        | arr entries => exact absurd hvalue (hentries entries)
        | _ => rfl
    · rfl

/-- The lists of paths are seen from `root`, each once, and all other settings stay. -/
private theorem exists_anchorLists (hdir : Path.isAbsolute dir = true) (root : String)
    {names : List String} (hnames : names.Nodup) {config : Fields} (hconfig : config.Distinct) :
    ∃ anchored, names.foldlM (anchorList d dir root) config = .ok anchored ∧ anchored.Distinct ∧
      ∀ other, anchored.get? other =
        if other ∈ names then (config.get? other).map (rebased d dir root)
        else config.get? other := by
  induction names generalizing config with
  | nil => exact ⟨config, rfl, hconfig, fun other => by simp⟩
  | cons name rest ih =>
    obtain ⟨hfresh, hrest⟩ := List.nodup_cons.mp hnames
    obtain ⟨next, hnext, hdistinct, hget⟩ := exists_anchorList hdir root name hconfig
    obtain ⟨anchored, hanchored, hdistinct', hget'⟩ := ih hrest hdistinct
    refine ⟨anchored, ?_, hdistinct', fun other => ?_⟩
    · rw [List.foldlM_cons, hnext]
      exact hanchored
    · rw [hget', hget]
      by_cases hother : other = name
      · subst hother
        simp [hfresh]
      · simp [hother]

/-- The value of a setting of a file in the folder `dir`, seen from the folder `root`. Lists of
paths stay as they are when the two folders are the same. -/
def anchoredSetting (d : Disk) (dir root key : String) (value : Json) : Json :=
  if key ∈ pathLists ∧ Path.normalize dir ≠ Path.normalize root then rebased d dir root value
  else value

/-- The value of an option of a file in the folder `dir`. -/
def anchoredOption (dir name : String) (value : Json) : Json :=
  if name ∈ pathOptions then absoluteFrom dir value else value

/-- Settings that can be merged: every name comes once, and the options of the compiler, if there
are any, are an object in which every name comes once. -/
structure Mergeable (config : Fields) : Prop where
  distinct : config.Distinct
  options : config.get? "compilerOptions" = none ∨
    ∃ options, config.get? "compilerOptions" = some (.obj options) ∧ Fields.Distinct options

private theorem option?_of_none {config : Fields} (h : config.get? "compilerOptions" = none)
    (name : String) : option? config name = none := by
  rw [option?, h]

theorem option?_of_some {config options : Fields}
    (h : config.get? "compilerOptions" = some (.obj options)) (name : String) :
    option? config name = options.get? name := by
  rw [option?, h]

/-- What anchoring makes of the settings of a file in the folder `dir`. -/
structure Anchored (d : Disk) (dir root : String) (config anchored : Fields) : Prop where
  mergeable : Mergeable anchored
  hasOptions : (anchored.get? "compilerOptions").isSome = (config.get? "compilerOptions").isSome
  setting : ∀ key, key ≠ "compilerOptions" →
    anchored.get? key = (config.get? key).map (anchoredSetting d dir root key)
  option : ∀ name, option? anchored name = (option? config name).map (anchoredOption dir name)

/-- The value of any setting of a file in the folder `dir`, the options of the compiler included,
seen from the folder `root`. -/
def anchoredValue (d : Disk) (dir root key : String) (value : Json) : Json :=
  if key = "compilerOptions" then
    match value with
    | .obj options => .obj (pathOptions.foldl (anchorOption dir) options)
    | value => value
  else anchoredSetting d dir root key value

/-- The first half of anchoring: the options that hold paths. -/
private theorem exists_anchoredOptions (d : Disk) (dir root : String) {config : Fields}
    (h : config.Distinct) :
    ∃ next : Fields, (anchor d config dir root =
        if Path.normalize dir = Path.normalize root then .ok next
        else pathLists.foldlM (anchorList d dir root) next) ∧ next.Distinct ∧
      ∀ key, next.get? key = (config.get? key).map fun value =>
        if key = "compilerOptions" then anchoredValue d dir root key value else value := by
  -- every setting but the options stays
  have hset {next : Fields} (hne : ∀ key ≠ "compilerOptions", next.get? key = config.get? key)
      (hoptions : next.get? "compilerOptions" =
        (config.get? "compilerOptions").map (anchoredValue d dir root "compilerOptions"))
      (key : String) : next.get? key = (config.get? key).map fun value =>
        if key = "compilerOptions" then anchoredValue d dir root key value else value := by
    by_cases hkey : key = "compilerOptions"
    · rw [hkey, hoptions]
      rfl
    · simp [hne key hkey, hkey]
  cases hoptions : config.get? "compilerOptions" with
  | none =>
    exact ⟨config, by rw [anchor, hoptions], h, hset (fun _ _ => rfl) (by rw [hoptions]; rfl)⟩
  | some value =>
    cases value with
    | obj options =>
      refine ⟨_, by rw [anchor, hoptions], h.put _ _, hset (fun key hkey => ?_) ?_⟩
      · rw [Fields.get?_put, if_neg hkey]
      · rw [Fields.get?_put, if_pos rfl, hoptions]
        rfl
    | _ =>
      exact ⟨config, by rw [anchor, hoptions], h, hset (fun _ _ => rfl) (by rw [hoptions]; rfl)⟩

/-- Anchoring gives every setting its anchored value, whatever values there are. -/
theorem exists_anchor_values (hdir : Path.isAbsolute dir = true) (root : String) {config : Fields}
    (h : config.Distinct) :
    ∃ anchored, anchor d config dir root = .ok anchored ∧ anchored.Distinct ∧
      ∀ key, anchored.get? key = (config.get? key).map (anchoredValue d dir root key) := by
  obtain ⟨next, hnext, hdistinct, hget⟩ := exists_anchoredOptions d dir root h
  rw [hnext]
  by_cases hsame : Path.normalize dir = Path.normalize root
  · -- in the folder of the first file lists of paths are left alone
    refine ⟨next, if_pos hsame, hdistinct, fun key => ?_⟩
    rw [hget]
    congr 1
    funext value
    split_ifs with hkey
    · rfl
    · exact ((if_neg hkey).trans (if_neg fun hlist => hlist.2 hsame)).symm
  · obtain ⟨anchored, hanchored, hdistinct, hlists⟩ :=
      exists_anchorLists (d := d) hdir root (show pathLists.Nodup by decide) hdistinct
    refine ⟨anchored, by rw [if_neg hsame]; exact hanchored, hdistinct, fun key => ?_⟩
    rw [hlists, hget]
    by_cases hkey : key = "compilerOptions"
    · subst hkey
      rw [if_neg (by decide)]
      rfl
    · have heq : anchoredValue d dir root key = anchoredSetting d dir root key :=
        funext fun value => if_neg hkey
      simp only [hkey, if_false, Option.map_id', heq]
      by_cases hlist : key ∈ pathLists
      · rw [if_pos hlist]
        congr 1
        funext value
        rw [anchoredSetting, if_pos ⟨hlist, hsame⟩]
      · have hid : anchoredSetting d dir root key = id :=
          funext fun value => if_neg fun h => hlist h.1
        rw [if_neg hlist, hid, Option.map_id]
        rfl

/-- Where the options of the compiler are anchored, every option is. -/
theorem option?_anchored {root : String} {config anchored : Fields}
    (h : anchored.get? "compilerOptions" =
      (config.get? "compilerOptions").map (anchoredValue d dir root "compilerOptions"))
    (name : String) :
    option? anchored name = (option? config name).map (anchoredOption dir name) := by
  cases hvalue : config.get? "compilerOptions" with
  | none =>
    rw [option?_of_none hvalue, option?_of_none (by rw [h, hvalue]; rfl)]
    rfl
  | some value =>
    rw [hvalue, Option.map_some] at h
    cases value with
    | obj options =>
      have hoptions : anchored.get? "compilerOptions" =
          some (.obj (pathOptions.foldl (anchorOption dir) options)) := h
      rw [option?_of_some hvalue, option?_of_some hoptions, get?_anchorOptions dir (by decide)]
      by_cases hname : name ∈ pathOptions
      · rw [if_pos hname]
        congr 1
        funext value
        rw [anchoredOption, if_pos hname]
      · have hid : anchoredOption dir name = id := funext fun value => if_neg hname
        rw [if_neg hname, hid, Option.map_id]
        rfl
    | _ =>
      rw [option?, option?, hvalue, h]
      rfl

/-- **Anchoring** gives every setting its anchored value and every option its own. -/
theorem exists_anchor (hdir : Path.isAbsolute dir = true) (root : String) {config : Fields}
    (h : Mergeable config) :
    ∃ anchored, anchor d config dir root = .ok anchored ∧ Anchored d dir root config anchored := by
  obtain ⟨anchored, hanchored, hdistinct, hget⟩ :=
    exists_anchor_values (d := d) hdir root h.distinct
  have hsetting : ∀ key, key ≠ "compilerOptions" →
      anchored.get? key = (config.get? key).map (anchoredSetting d dir root key) := by
    intro key hkey
    rw [hget]
    congr 1
    exact funext fun value => if_neg hkey
  have hhas : (anchored.get? "compilerOptions").isSome =
      (config.get? "compilerOptions").isSome := by rw [hget, Option.isSome_map]
  refine ⟨anchored, hanchored, ⟨hdistinct, ?_⟩, hhas, hsetting, option?_anchored (hget _)⟩
  rcases h.options with hnone | ⟨options, hsome, hoptions⟩
  · exact .inl (by rw [hget, hnone]; rfl)
  · exact .inr ⟨_, by rw [hget, hsome]; rfl, distinct_anchorOptions dir pathOptions hoptions⟩

/-! ### Merging -/

/-- What merging makes of the settings of two files: each setting and each option is that of the
upper one, or else that of the lower one. -/
structure Merged (base child merged : Fields) : Prop where
  mergeable : Mergeable merged
  hasOptions : (merged.get? "compilerOptions").isSome =
    ((child.get? "compilerOptions").isSome || (base.get? "compilerOptions").isSome)
  setting : ∀ key, key ≠ "compilerOptions" →
    merged.get? key = (child.get? key).or (base.get? key)
  option : ∀ name, option? merged name = (option? child name).or (option? base name)

private theorem get?_putAll_without (base : Fields) {child : Fields} (hchild : child.Distinct)
    (key : String) :
    (base.putAll (child.without "compilerOptions")).get? key =
      if key = "compilerOptions" then base.get? key else (child.get? key).or (base.get? key) := by
  rw [Fields.get?_putAll (hchild.without _), Fields.get?_without]
  split_ifs <;> rfl

/-- Every setting but the options is that of the upper file, or else that of the lower one. -/
theorem get?_merge (base : Fields) {child : Fields} (hchild : child.Distinct) {key : String}
    (hkey : key ≠ "compilerOptions") :
    (merge base child).get? key = (child.get? key).or (base.get? key) := by
  have hrest := get?_putAll_without base hchild key
  rw [if_neg hkey] at hrest
  rw [merge]
  split
  · rw [Fields.get?_put, if_neg hkey, hrest]
  · exact hrest
  · exact hrest
  · rw [Fields.get?_put, if_neg hkey, hrest]

theorem distinct_merge {base : Fields} (hbase : base.Distinct) (child : Fields) :
    (merge base child).Distinct := by
  have hrest := hbase.putAll (child.without "compilerOptions")
  rw [merge]
  split
  · exact hrest.put _ _
  · exact hrest
  · exact hrest
  · exact hrest.put _ _

private theorem merge_of_none {base child : Fields} (hc : child.get? "compilerOptions" = none) :
    merge base child = base.putAll (child.without "compilerOptions") := by
  rw [merge, hc]
  split
  · next h => cases h
  · rfl
  · rfl
  · next h _ => cases h

/-- **Merging** lays the settings of the upper file over those of the lower one, and its options
over the other's. -/
theorem merged_merge {base child : Fields} (hbase : Mergeable base) (hchild : Mergeable child) :
    Merged base child (merge base child) := by
  have hdistinct := distinct_merge hbase.distinct child
  have hsetting (key : String) (hkey : key ≠ "compilerOptions") :=
    get?_merge base hchild.distinct hkey
  have hgot (options : Json) :
      ((base.putAll (child.without "compilerOptions")).put "compilerOptions" options).get?
        "compilerOptions" = some options := by
    rw [Fields.get?_put, if_pos rfl]
  rcases hchild.options with hc | ⟨childOptions, hc, hcd⟩
  · -- the upper file has no options: those of the lower one stay
    have hkeep : (merge base child).get? "compilerOptions" = base.get? "compilerOptions" := by
      rw [merge_of_none hc, get?_putAll_without base hchild.distinct, if_pos rfl]
    refine ⟨⟨hdistinct, by rw [hkeep]; exact hbase.options⟩, ?_, hsetting, fun name => ?_⟩
    · rw [hkeep, hc]
      rfl
    · rw [option?_of_none hc, Option.none_or, option?, option?, hkeep]
  · rcases hbase.options with hb | ⟨baseOptions, hb, hbd⟩
    · have hmerged : (merge base child).get? "compilerOptions" = some (.obj childOptions) := by
        rw [merge, hb, hc]
        exact hgot _
      refine ⟨⟨hdistinct, .inr ⟨_, hmerged, hcd⟩⟩, ?_, hsetting, fun name => ?_⟩
      · rw [hmerged, hc]
        rfl
      · rw [option?_of_some hmerged, option?_of_some hc, option?_of_none hb, Option.or_none]
    · have hmerged : (merge base child).get? "compilerOptions" =
          some (.obj (Fields.putAll baseOptions childOptions)) := by
        rw [merge, hb, hc]
        exact hgot _
      refine ⟨⟨hdistinct, .inr ⟨_, hmerged, hbd.putAll _⟩⟩, ?_, hsetting, fun name => ?_⟩
      · rw [hmerged, hc]
        rfl
      · rw [option?_of_some hmerged, option?_of_some hc, option?_of_some hb,
          Fields.get?_putAll hcd]

end Config

end ApiOutline
