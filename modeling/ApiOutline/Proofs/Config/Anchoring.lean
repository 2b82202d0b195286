import ApiOutline.Proofs.Config.Settings
import ApiOutline.Proofs.Path.Folder
import Mathlib.Data.List.Forall2

/-!
# What the paths of a configuration denote

The settings of a base configuration are written down for its own folder and read from the folder
of the first file. Anchoring is what comes between, and it keeps what every path denotes: an entry
of a list of paths leads from the second folder where it led from the first, and the path of an
option becomes absolute, so it leads to the same place from everywhere (`KeepsPlaces`). Nothing else
changes.

An entry is kept by its names: the way from one folder to the names of a path leads there from the
folder, below the folder's own root (`Path.Folder.normalize_join_way`). So one thing is lost. A path
with exactly two slashes at its beginning stands below a root of its own, and no way from a folder
below the other root leads there; it comes out with one slash (`anchor_doubled`).
-/

namespace ApiOutline

namespace Config

open Json (Fields)

variable {d : Disk} {dir root : String}

/-! ### Entries of lists -/

/-- `entry'` denotes in the folder `root` what `entry` denotes in the folder `dir`. Between two
folders, one of exactly two slashes at the beginning is lost. -/
structure KeepsPlace (dir root : String) (entry entry' : Json) : Prop where
  eq : Path.normalize dir = Path.normalize root ∨ Path.rootOf entry.text ≠ "//" →
    Path.absolute root entry'.text = Path.absolute dir entry.text
  doubled : Path.normalize dir ≠ Path.normalize root → Path.rootOf entry.text = "//" →
    "/" ++ Path.absolute root entry'.text = Path.absolute dir entry.text

/-- In the same folder an entry stays. -/
theorem KeepsPlace.refl (hdir : Path.isAbsolute dir = true) (hroot : Path.isAbsolute root = true)
    (hsame : Path.normalize dir = Path.normalize root) (entry : Json) :
    KeepsPlace dir root entry entry where
  eq := fun _ => by
    rw [Path.absolute, Path.absolute, ← Path.normalize_join_normalize hroot, ← hsame,
      Path.normalize_join_normalize hdir]
  doubled := fun hne => absurd hsame hne

/-- **An entry that is seen from `root`** denotes what it denoted before. -/
theorem keepsPlace_seenFrom (hdir : Path.rootOf dir = "/") (hroot : Path.rootOf root = "/")
    (hne : Path.normalize dir ≠ Path.normalize root) (entry : Json) :
    KeepsPlace dir root entry (seenFrom d dir root entry) := by
  have habs : Path.isAbsolute dir = true := Path.isAbsolute_of_isRoot (.inl hdir)
  have habs' : Path.isAbsolute root = true := Path.isAbsolute_of_isRoot (.inl hroot)
  have hjoin := Path.isAbsolute_join habs entry.text
  obtain ⟨way, hway⟩ : ∃ way, d.relative (Path.join dir entry.text) root = .ok way :=
    Path.exists_relative_iff.mpr (Path.ne_empty_of_isAbsolute hjoin)
  have hseen : (seenFrom d dir root entry).text = way := by
    rw [seenFrom, hway]
    rfl
  -- both sides have the names of one path, below roots of their own
  have hafter : Path.absolute root (seenFrom d dir root entry).text =
      Path.spell "/" (Path.collapse true (Path.names (Path.join dir entry.text))) := by
    rw [hseen, Path.absolute, Path.Folder.normalize_join_way habs' hjoin hway, hroot]
  have hbefore : Path.absolute dir entry.text = Path.spell (Path.rootOf (Path.join dir entry.text))
      (Path.collapse true (Path.names (Path.join dir entry.text))) :=
    Path.normalize_of_isAbsolute hjoin
  constructor
  · intro h
    rw [hafter, hbefore, Path.rootOf_join_eq (.inl rfl) hdir fun hp =>
      (Path.isRoot_rootOf hp).resolve_right (h.resolve_left hne)]
  · intro _ hslashes
    have hp : Path.isAbsolute entry.text = true := Path.isAbsolute_of_isRoot (.inr hslashes)
    rw [hafter, hbefore, Path.join_of_isAbsolute hp, hslashes, Path.spell, Path.spell,
      ← String.append_assoc]
    rfl

/-! ### Settings -/

/-- Settings of a file in the folder `dir` and what they become in the folder `root`: every path
denotes what it denoted before, and nothing else has changed. -/
structure KeepsPlaces (dir root : String) (config anchored : Fields) : Prop where
  list : ∀ key ∈ pathLists, ∀ entries, config.get? key = some (.arr entries) →
    ∃ entries', anchored.get? key = some (.arr entries') ∧
      List.Forall₂ (KeepsPlace dir root) entries entries' ∧
      (Path.normalize dir = Path.normalize root → entries' = entries)
  path : ∀ name ∈ pathOptions, ∀ value ≠ "", option? config name = some (.str value) →
    option? anchored name = some (.str (Path.absolute dir value)) ∧
      Path.isAbsolute (Path.absolute dir value) = true ∧
      ∀ base, Path.absolute base (Path.absolute dir value) = Path.absolute dir value
  option : ∀ name, (name ∈ pathOptions → ∀ value ≠ "", option? config name ≠ some (.str value)) →
    option? anchored name = option? config name
  options : (∀ options, config.get? "compilerOptions" = some (.obj options) →
      ∃ options', anchored.get? "compilerOptions" = some (.obj options')) ∧
    ((∀ options, config.get? "compilerOptions" ≠ some (.obj options)) →
      anchored.get? "compilerOptions" = config.get? "compilerOptions")
  setting : ∀ key ≠ "compilerOptions",
    (key ∈ pathLists → ∀ entries, config.get? key ≠ some (.arr entries)) →
    anchored.get? key = config.get? key

/-- Only a text that is not empty is made absolute. -/
private theorem absoluteFrom_eq_self {value : Json} (h : ∀ text ≠ "", value ≠ .str text)
    (dir : String) :
    absoluteFrom dir value = value := by
  cases value with
  | str text =>
    by_cases hempty : text = ""
    · rw [absoluteFrom, if_pos hempty]
    · exact absurd rfl (h text hempty)
  | _ => rfl

/-- Only a list is seen from another folder. -/
private theorem rebased_eq_self {value : Json} (h : ∀ entries, value ≠ .arr entries) :
    rebased d dir root value = value := by
  cases value with
  | arr entries => exact absurd rfl (h entries)
  | _ => rfl

/-- Anchored values denote what they denoted before. -/
private theorem keepsPlaces_of_anchoredValue (hdir : Path.rootOf dir = "/")
    (hroot : Path.rootOf root = "/")
    {config anchored : Fields}
    (h : ∀ key, anchored.get? key = (config.get? key).map (anchoredValue d dir root key)) :
    KeepsPlaces dir root config anchored where
  list := by
    intro key hkey entries hentries
    have hne : key ≠ "compilerOptions" := by
      rintro rfl
      exact absurd hkey (by decide)
    have hget : anchored.get? key = some (anchoredSetting d dir root key (.arr entries)) := by
      rw [h, hentries]
      exact congrArg some (if_neg hne)
    by_cases hsame : Path.normalize dir = Path.normalize root
    · refine ⟨entries, ?_, List.forall₂_same.mpr fun entry _ => ?_, fun _ => rfl⟩
      · rw [hget, anchoredSetting, if_neg fun hlist => hlist.2 hsame]
      · exact .refl (Path.isAbsolute_of_isRoot (.inl hdir)) (Path.isAbsolute_of_isRoot (.inl hroot))
          hsame entry
    · refine ⟨entries.map (seenFrom d dir root), ?_, ?_, fun heq => absurd heq hsame⟩
      · rw [hget, anchoredSetting, if_pos ⟨hkey, hsame⟩, rebased]
      · rw [List.forall₂_map_right_iff, List.forall₂_same]
        exact fun entry _ => keepsPlace_seenFrom hdir hroot hsame entry
  path := by
    intro name hname value hvalue hget
    have habs : Path.isAbsolute dir = true := Path.isAbsolute_of_isRoot (.inl hdir)
    refine ⟨?_, Path.isAbsolute_absolute habs value, fun base =>
      Path.absolute_absolute habs base value⟩
    rw [option?_anchored (h _), hget, Option.map_some, anchoredOption, if_pos hname, absoluteFrom,
      if_neg hvalue, Path.absolute]
  option := by
    intro name hplain
    rw [option?_anchored (h _)]
    cases hvalue : option? config name with
    | none => rfl
    | some value =>
      rw [Option.map_some, anchoredOption]
      split_ifs with hname
      · rw [absoluteFrom_eq_self fun text hne heq => hplain hname text hne (heq ▸ hvalue)]
      · rfl
  options := by
    constructor
    · intro options hoptions
      exact ⟨_, by rw [h, hoptions]; rfl⟩
    · intro hnone
      rw [h]
      cases hvalue : config.get? "compilerOptions" with
      | none => rfl
      | some value =>
        cases value with
        | obj options => exact absurd hvalue (hnone options)
        | _ => rfl
  setting := by
    intro key hkey hplain
    rw [h]
    cases hvalue : config.get? key with
    | none => rfl
    | some value =>
      refine congrArg some ((if_neg hkey).trans ?_)
      rw [anchoredSetting]
      split_ifs with hlist
      · exact rebased_eq_self fun entries heq => hplain hlist.1 entries (heq ▸ hvalue)
      · rfl

/-- **Anchoring keeps what every path denotes**, whatever the settings and the two folders are, and
changes nothing else; only one of exactly two slashes at the beginning of an entry is lost. -/
theorem exists_anchor_keepsPlaces (d : Disk) (hdir : Path.rootOf dir = "/")
    (hroot : Path.rootOf root = "/") {config : Fields} (h : config.Distinct) :
    ∃ anchored, anchor d config dir root = .ok anchored ∧ KeepsPlaces dir root config anchored := by
  obtain ⟨anchored, hanchored, -, hget⟩ :=
    exists_anchor_values (d := d) (Path.isAbsolute_of_isRoot (.inl hdir)) root h
  exact ⟨anchored, hanchored, keepsPlaces_of_anchoredValue hdir hroot hget⟩

/-- The settings of a base in a folder of its own. -/
def sharedSettings : Fields :=
  [("files", .arr [.str "a.ts", .str "../b/*.ts", .str "/c.ts", .str ""]),
    ("compilerOptions", .obj [("strict", .bool true), ("outDir", .str "out")])]

/-- In the folder beside it, files and options of the base denote what they denoted before. -/
theorem exists_anchor_keepsPlaces_sharedSettings :
    Path.rootOf "/p/shared" = "/" ∧ Path.rootOf "/p/app" = "/" ∧ sharedSettings.Distinct ∧
      ∃ anchored, anchor ⟨[], "/", .uniform 8⟩ sharedSettings "/p/shared" "/p/app" = .ok anchored ∧
        KeepsPlaces "/p/shared" "/p/app" sharedSettings anchored ∧
        option? anchored "outDir" = some (.str "/p/shared/out") ∧
        option? anchored "strict" = some (.bool true) := by
  have hdir : Path.rootOf "/p/shared" = "/" := by decide
  have hroot : Path.rootOf "/p/app" = "/" := by decide
  have hdistinct : sharedSettings.Distinct := by
    unfold Fields.Distinct
    decide
  obtain ⟨anchored, hanchored, hkeeps⟩ :=
    exists_anchor_keepsPlaces ⟨[], "/", .uniform 8⟩ hdir hroot hdistinct
  refine ⟨hdir, hroot, hdistinct, anchored, hanchored, hkeeps, ?_, ?_⟩
  · have hout : Path.absolute "/p/shared" "out" = "/p/shared/out" := by decide
    rw [(hkeeps.path "outDir" (by decide) "out" (by decide) rfl).1, hout]
  · exact hkeeps.option "strict" fun hname => absurd hname (by decide)

/-- **Two slashes become one**: an entry that begins with exactly two slashes comes out of another
folder as the path with one. -/
theorem anchor_doubled :
    anchor ⟨[], "/", .uniform 8⟩ [("files", .arr [.str "//x"])] "/a" "/b" =
        .ok [("files", .arr [.str "../x"])] ∧
      Path.absolute "/b" "../x" ≠ Path.absolute "/a" "//x" :=
  ⟨by rfl, by decide⟩

end Config

end ApiOutline
