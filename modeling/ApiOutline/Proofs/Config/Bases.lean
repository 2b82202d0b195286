import ApiOutline.Config.Extends
import ApiOutline.Proofs.Path.Names
import Mathlib.Logic.Function.Iterate

/-!
# Where a base is found

An entry of `extends` that is a path leads to one place, seen from the folder of the file, with or
without `.json`. A bare name is looked for in that folder and in every folder above it, three
places in each.

Going up ends, whatever text the folder is (`ancestorsWithin_spec`): a folder that is not its own
folder is longer than its folder, so after at most as many steps as it has characters the folders
no longer change. From there on every further step gives the same, and the folders that are looked
through can be told by the number of steps alone (`findSome?_ancestors`). So the base is the first
place of the nearest folder in which one of the places is a file (`resolveBase_of_isBare`).
-/

namespace ApiOutline

namespace Path

/-- A path that is joined to a folder comes after it, with or without a slash between them. -/
private theorem exists_join_eq {p : String} (hp : isAbsolute p = false) (folder : String) :
    ∃ slash, join folder p = folder ++ slash ++ p := by
  rw [join, hp, if_neg (by decide)]
  split_ifs
  · exact ⟨"", by rw [String.append_empty]⟩
  · exact ⟨"/", rfl⟩

end Path

namespace Config

variable {d : Disk} {value dir : String}

/-! ### Going up -/

/-- The `top`-th folder above `dir` is the first that has no other folder above it. -/
structure IsTop (dir : String) (top : Nat) : Prop where
  still : Path.dirname (Path.dirname^[top] dir) = Path.dirname^[top] dir
  moves : ∀ k < top, Path.dirname (Path.dirname^[k] dir) ≠ Path.dirname^[k] dir

/-- The folder itself has none above it. -/
theorem IsTop.zero (h : Path.dirname dir = dir) : IsTop dir 0 where
  still := h
  moves := fun k hk => absurd hk (Nat.not_lt_zero k)

/-- One more step leads up from a folder that has one above it. -/
theorem IsTop.succ {top : Nat} (hne : Path.dirname dir ≠ dir) (h : IsTop (Path.dirname dir) top) :
    IsTop dir (top + 1) where
  still := h.still
  moves := fun
    | 0, _ => hne
    | k + 1, hk => h.moves k (Nat.lt_of_succ_lt_succ hk)

/-- Above the top nothing changes. -/
private theorem IsTop.iterate_eq {top n : Nat} (h : IsTop dir top) (hn : top ≤ n) :
    Path.dirname^[n] dir = Path.dirname^[top] dir := by
  obtain ⟨k, rfl⟩ := Nat.exists_eq_add_of_le' hn
  rw [Function.iterate_add_apply, Function.iterate_fixed h.still]

/-- **Going up ends** within as many steps as there is room for, if there is room for each
character. -/
theorem ancestorsWithin_spec {fuel : Nat} (h : dir.length ≤ fuel) :
    ∃ top ≤ fuel, IsTop dir top ∧
      ancestorsWithin fuel dir = (List.range (top + 1)).map (Path.dirname^[·] dir) := by
  induction fuel generalizing dir with
  | zero =>
    have hempty : dir = "" := String.length_eq_zero_iff.mp (Nat.le_zero.mp h)
    subst hempty
    exact ⟨0, Nat.le_refl 0, .zero (by decide), rfl⟩
  | succ fuel ih =>
    rw [ancestorsWithin]
    by_cases hstill : Path.dirname dir = dir
    · exact ⟨0, Nat.zero_le _, .zero hstill, if_pos hstill⟩
    · have hlt := Path.length_dirname_lt hstill
      obtain ⟨top, hle, htop, heq⟩ := ih (by omega : (Path.dirname dir).length ≤ fuel)
      refine ⟨top + 1, Nat.succ_le_succ hle, htop.succ hstill, ?_⟩
      rw [if_neg hstill, heq, List.range_succ_eq_map (n := top + 1), List.map_cons, List.map_map]
      rfl

/-- The folders that are looked through are those that any number of steps up leads to. -/
private theorem mem_ancestors_iff {above : String} :
    above ∈ ancestors dir ↔ ∃ n, Path.dirname^[n] dir = above := by
  obtain ⟨top, -, htop, heq⟩ := ancestorsWithin_spec (Nat.le_refl dir.length)
  rw [ancestors, heq, List.mem_map]
  constructor
  · rintro ⟨n, -, hn⟩
    exact ⟨n, hn⟩
  · rintro ⟨n, hn⟩
    by_cases hle : n ≤ top
    · exact ⟨n, List.mem_range.mpr (Nat.lt_succ_of_le hle), hn⟩
    · refine ⟨top, List.mem_range.mpr (Nat.lt_succ_self top), ?_⟩
      exact (htop.iterate_eq (by omega)).symm.trans hn

/-- What every step up keeps holds of all folders that are looked through. -/
theorem holds_of_mem_ancestors (P : String → Prop) (hdir : P dir)
    (hup : ∀ folder, P folder → P (Path.dirname folder)) {above : String}
    (h : above ∈ ancestors dir) : P above := by
  obtain ⟨n, rfl⟩ := mem_ancestors_iff.mp h
  exact Function.Iterate.rec P hdir hup n

/-- What is found first among the numbers below `n` is not found for a smaller one. -/
private theorem findSome?_range {α : Type} {look : Nat → Option α} {n : Nat} {a : α} :
    (List.range n).findSome? look = some a ↔
      ∃ i < n, (∀ k < i, look k = none) ∧ look i = some a := by
  induction n with
  | zero => simp
  | succ n ih =>
    rw [List.range_succ, List.findSome?_append, Option.or_eq_some_iff, ih,
      List.findSome?_singleton, List.findSome?_eq_none_iff]
    constructor
    · rintro (⟨i, hi, h⟩ | ⟨hnone, h⟩)
      · exact ⟨i, Nat.lt_succ_of_lt hi, h⟩
      · exact ⟨n, Nat.lt_succ_self n, fun k hk => hnone k (List.mem_range.mpr hk), h⟩
    · rintro ⟨i, hi, hbefore, h⟩
      rcases Nat.lt_succ_iff_lt_or_eq.mp hi with hlt | rfl
      · exact .inl ⟨i, hlt, hbefore, h⟩
      · exact .inr ⟨fun k hk => hbefore k (List.mem_range.mp hk), h⟩

/-- What is found first while going up is found after some number of steps, and not before. -/
private theorem findSome?_ancestors {α : Type} (look : String → Option α) {a : α} :
    (ancestors dir).findSome? look = some a ↔
      ∃ n, (∀ k < n, look (Path.dirname^[k] dir) = none) ∧
        look (Path.dirname^[n] dir) = some a := by
  obtain ⟨top, -, htop, heq⟩ := ancestorsWithin_spec (Nat.le_refl dir.length)
  rw [ancestors, heq, List.findSome?_map, findSome?_range]
  constructor
  · rintro ⟨n, -, hbefore, h⟩
    exact ⟨n, hbefore, h⟩
  · rintro ⟨n, hbefore, h⟩
    by_cases hle : n ≤ top
    · exact ⟨n, Nat.lt_succ_of_le hle, hbefore, h⟩
    · -- the top comes before, and nothing is found there
      rw [htop.iterate_eq (by omega), hbefore top (by omega)] at h
      exact absurd h nofun

/-! ### Bare names -/

/-- A value that is no path. -/
def IsBare (value : String) : Prop :=
  Text.startsWith value "." = false ∧ Path.isAbsolute value = false

/-- The places of a bare name among the dependencies of the folder `above`. -/
def dependencyPaths (value above : String) : List String :=
  let base := Path.join (Path.join above "node_modules") value
  [base, base ++ ".json", Path.join base "tsconfig.json"]

/-- `f` is the first place of `value` in the `n`-th folder above `dir` that is a file, and none of
its places in a folder before that one is a file. -/
structure IsNearest (d : Disk) (value dir : String) (n : Nat) (f : String) : Prop where
  before : ∀ k < n, ∀ g ∈ dependencyPaths value (Path.dirname^[k] dir), d.isFile g = false
  first : (dependencyPaths value (Path.dirname^[n] dir)).find? d.isFile = some f
  below : ∃ rest, f = Path.join (Path.dirname^[n] dir) "node_modules" ++ "/" ++ rest

private theorem IsBare.baseCandidates_eq (h : IsBare value) (dir : String) :
    baseCandidates value dir = (ancestors dir).flatMap (dependencyPaths value) := by
  rw [baseCandidates, h.1, h.2]
  rfl

/-- The places of a bare name lie below the dependencies of the folder. -/
private theorem IsBare.exists_of_mem_dependencyPaths (h : IsBare value) {above f : String}
    (hf : f ∈ dependencyPaths value above) :
    ∃ rest, f = Path.join above "node_modules" ++ "/" ++ rest := by
  have hbase : Path.join (Path.join above "node_modules") value =
      Path.join above "node_modules" ++ "/" ++ value := by
    obtain ⟨slash, hjoin⟩ := Path.exists_join_eq (p := "node_modules") (by decide) above
    have hend : Text.endsWith (Path.join above "node_modules") "/" = false := by
      refine Bool.eq_false_iff.mpr fun hend => ?_
      obtain ⟨before, hbefore⟩ := Path.exists_eq_append_of_endsWith hend
      have hlast := congrArg (fun s => s.toList.getLast?) (hjoin.symm.trans hbefore)
      simp at hlast
    have hne : Path.join above "node_modules" ≠ "" := by
      rw [hjoin]
      simp
    rw [Path.join, h.2, if_neg (by decide), if_neg (by simp [hend, hne])]
  rw [dependencyPaths, hbase] at hf
  simp only [List.mem_cons, List.not_mem_nil, or_false] at hf
  rcases hf with rfl | rfl | rfl
  · exact ⟨value, rfl⟩
  · exact ⟨value ++ ".json", String.append_assoc⟩
  · obtain ⟨slash, hjoin⟩ := Path.exists_join_eq (p := "tsconfig.json") (by decide)
      (Path.join above "node_modules" ++ "/" ++ value)
    exact ⟨value ++ slash ++ "tsconfig.json", by rw [hjoin]; simp only [String.append_assoc]⟩

/-- **A bare name** leads to the first place of the nearest folder that has any. -/
theorem resolveBase_of_isBare (h : IsBare value) {f : String} :
    resolveBase d value dir = some f ↔ ∃ n, IsNearest d value dir n f := by
  rw [resolveBase, h.baseCandidates_eq, List.find?_flatMap, findSome?_ancestors]
  simp only [List.find?_eq_none, Bool.not_eq_true]
  constructor
  · rintro ⟨n, hbefore, hfirst⟩
    have hbelow := h.exists_of_mem_dependencyPaths (List.mem_of_find?_eq_some hfirst)
    exact ⟨n, hbefore, hfirst, hbelow⟩
  · rintro ⟨n, hnearest⟩
    exact ⟨n, hnearest.before, hnearest.first⟩

/-- A bare name leads somewhere if any of its places in any of the folders is a file. -/
private theorem isSome_resolveBase_of_isBare (h : IsBare value) :
    (resolveBase d value dir).isSome = true ↔
      ∃ n, ∃ f ∈ dependencyPaths value (Path.dirname^[n] dir), d.isFile f = true := by
  rw [resolveBase, h.baseCandidates_eq, List.find?_isSome]
  simp only [List.mem_flatMap, mem_ancestors_iff]
  constructor
  · rintro ⟨f, ⟨above, ⟨n, rfl⟩, hf⟩, hfile⟩
    exact ⟨n, f, hf, hfile⟩
  · rintro ⟨n, f, hf, hfile⟩
    exact ⟨f, ⟨_, ⟨n, rfl⟩, hf⟩, hfile⟩

/-! ### Paths -/

/-- **A path** leads to the file that it spells, seen from the folder, or else to the one with
`.json` at its end. -/
theorem resolveBase_of_not_isBare (h : ¬ IsBare value) :
    resolveBase d value dir =
      let base := Path.normalize (Path.join dir value)
      if d.isFile base then some base
      else if Text.endsWith base ".json" = false ∧ d.isFile (base ++ ".json") then
        some (base ++ ".json")
      else none := by
  have hpath : (Text.startsWith value "." || Path.isAbsolute value) = true := by
    rw [IsBare, ← Bool.or_eq_false_iff, Bool.not_eq_false] at h
    exact h
  rw [resolveBase, baseCandidates, if_pos hpath]
  dsimp only
  generalize Path.normalize (Path.join dir value) = base
  cases hbase : d.isFile base with
  | true => cases Text.endsWith base ".json" <;> exact List.find?_cons_of_pos hbase
  | false =>
    have hskip (rest : List String) : (base :: rest).find? d.isFile = rest.find? d.isFile :=
      List.find?_cons_of_neg (by simp [hbase])
    cases Text.endsWith base ".json" with
    | true => exact hskip []
    | false =>
      refine (hskip [base ++ ".json"]).trans ?_
      cases hadded : d.isFile (base ++ ".json") with
      | true => exact List.find?_cons_of_pos hadded
      | false => exact List.find?_cons_of_neg (by simp [hadded])

/-! ### Every base -/

/-- What is found is a file. -/
private theorem isFile_of_resolveBase {f : String} (h : resolveBase d value dir = some f) :
    d.isFile f = true :=
  List.find?_some (p := d.isFile) h

/-- **Where a base is found.** Going up from the folder ends. What is found is a file. A bare name
leads somewhere exactly if one of its places in a folder on the way up is a file, and then to the
first one of the nearest such folder. A path leads to the file that it spells, seen from the folder,
or else to the one with `.json` at its end, if it has no such ending yet, or nowhere. -/
theorem resolveBase_spec (d : Disk) (value dir : String) :
    (∃ top ≤ dir.length, IsTop dir top ∧
      ancestors dir = (List.range (top + 1)).map (Path.dirname^[·] dir)) ∧
    (∀ f, resolveBase d value dir = some f → d.isFile f = true) ∧
    (IsBare value →
      ((resolveBase d value dir).isSome = true ↔
        ∃ n, ∃ f ∈ dependencyPaths value (Path.dirname^[n] dir), d.isFile f = true) ∧
      ∀ f, resolveBase d value dir = some f ↔ ∃ n, IsNearest d value dir n f) ∧
    (¬ IsBare value →
      resolveBase d value dir =
        let base := Path.normalize (Path.join dir value)
        if d.isFile base then some base
        else if Text.endsWith base ".json" = false ∧ d.isFile (base ++ ".json") then
          some (base ++ ".json")
        else none) :=
  ⟨ancestorsWithin_spec (Nat.le_refl _), fun _ => isFile_of_resolveBase,
    fun h => ⟨isSome_resolveBase_of_isBare h, fun _ => resolveBase_of_isBare h⟩,
    resolveBase_of_not_isBare⟩

/-- A name among the dependencies of a folder, and the same name at the top of the disk. -/
def dependencyDisk : Disk where
  entries := [("node_modules", .folder [("v", .file ⟨[], none, none⟩)]),
    ("p", .folder [("node_modules", .folder [("v", .folder [("tsconfig.json",
      .file ⟨[], none, none⟩)])]), ("q", .folder [])])]
  cwd := "/"
  limits := .uniform 8

/-- The last place in the nearest folder comes before the first one further up. -/
theorem resolveBase_spec_dependencyDisk :
    IsBare "v" ∧ ¬ IsBare "/node_modules/v" ∧
      resolveBase dependencyDisk "v" "/p/q" = some "/p/node_modules/v/tsconfig.json" ∧
      resolveBase dependencyDisk "/node_modules/v" "/p/q" = some "/node_modules/v" := by
  have hbare : IsBare "v" := ⟨by decide, by decide⟩
  have hpath : ¬ IsBare "/node_modules/v" := fun h => absurd h.2 (by decide)
  refine ⟨hbare, hpath, ?_, ?_⟩
  · rw [((resolveBase_spec dependencyDisk "v" "/p/q").2.2.1 hbare).2]
    refine ⟨1, fun k hk g hg => ?_, by decide +kernel, "v/tsconfig.json", by decide +kernel⟩
    -- the only folder before is the one without dependencies
    obtain rfl : k = 0 := by omega
    simp only [Function.iterate_zero, id_eq] at hg
    revert g
    decide +kernel
  · rw [(resolveBase_spec dependencyDisk "/node_modules/v" "/p/q").2.2.2 hpath]
    decide +kernel

end Config

end ApiOutline
