import ApiOutline.Proofs.Config.Settings
import ApiOutline.Proofs.Disk.Paths
import ApiOutline.Proofs.Json.Room
import Mathlib.Data.Set.Card

/-!
# Which file has the last word

The files that a configuration takes its settings from stand in a line: each file after the files
that it extends, and of these the ones named later after the ones named earlier. A file that comes
back in its own chain adds nothing there. `Config.linear` is that line, a plain recursion that ends
because a chain holds no path twice and a disk has finitely many paths of files.

`Gathers` says that settings are those of such a line: every setting has the value that the last
file in the line gives it, with lists of paths seen from the folder `root`; every option of the
compiler has the value that the last file gives it, with paths seen from that file's folder; and
`extends` itself is gone. It is respected by merging, which puts one line after the other. Nothing
here mentions how a chain is loaded.
-/

namespace ApiOutline

namespace Config

open Json (Fields)

variable {d : Disk}

/-! ### The line of files -/

/-- What a file sets: what loading it by itself gives. -/
def settings (d : Disk) (f : String) : Fields :=
  match (load d f false true).result with
  | .ok fields => fields
  | .error _ => []

/-- The files that a file extends, in order; an entry that leads to no file is left out. -/
def bases (d : Disk) (f : String) : List String :=
  ((((settings d f).get? "extends").bind baseNames).getD []).filterMap fun name =>
    resolveBase d name (Path.dirname f)

/-- Only a file that can be read sets anything. -/
private theorem isFile_of_settings_ne_nil {f : String} (h : settings d f ≠ []) :
    d.isFile f = true := by
  rw [settings, load, loadWithin, Disk.read] at h
  cases hfind : d.find f with
  | error cause =>
    rw [hfind] at h
    cases cause <;> exact absurd rfl h
  | ok item =>
    rw [Disk.isFile, hfind]
    cases item with
    | file contents => rfl
    | folder entries =>
      rw [hfind] at h
      exact absurd rfl h
    | link target =>
      rw [hfind] at h
      exact absurd rfl h

theorem isFile_of_mem_bases {f b : String} (h : b ∈ bases d f) : d.isFile f = true := by
  refine isFile_of_settings_ne_nil fun hnil => ?_
  rw [bases, hnil] at h
  exact absurd h (by simp [Fields.get?])

/-- The paths of files that a chain has not come to. -/
def untried (d : Disk) (chain : List String) : Set String :=
  {p | d.isFile p = true ∧ p ∉ chain}

private theorem ncard_untried_lt {chain : List String} {f : String} (hf : d.isFile f = true)
    (hfresh : f ∉ chain) : (untried d (f :: chain)).ncard < (untried d chain).ncard := by
  refine Set.ncard_lt_ncard ⟨?_, fun hsub => ?_⟩ (d.finite_isFile.subset fun p hp => hp.1)
  · exact fun p hp => ⟨hp.1, fun hmem => hp.2 (List.mem_cons_of_mem _ hmem)⟩
  · exact (hsub ⟨hf, hfresh⟩).2 List.mem_cons_self

/-- The files whose settings count for `f`, which the files of `chain` extend: those of its bases,
in order, and then `f` itself. -/
def linear (d : Disk) (chain : List String) (f : String) : List String :=
  if _h : f ∈ chain then []
  else (bases d f).attach.flatMap (fun b => linear d (f :: chain) b.1) ++ [f]
termination_by (untried d chain).ncard
-- a file that extends anything can be read, and it was not in the chain before
decreasing_by exact ncard_untried_lt (isFile_of_mem_bases b.2) _h

theorem linear_of_mem {chain : List String} {f : String} (h : f ∈ chain) :
    linear d chain f = [] := by
  rw [linear, dif_pos h]

theorem linear_of_not_mem {chain : List String} {f : String} (h : f ∉ chain) :
    linear d chain f = (bases d f).flatMap (linear d (f :: chain)) ++ [f] := by
  rw [linear, dif_neg h, List.flatMap_subtype (g := linear d (f :: chain)) fun _ _ => rfl,
    List.unattach_attach]

/-! ### The last word -/

/-- The value that the last of the files to have one has. -/
def lastOf {α : Type} (value : String → Option α) (files : List String) : Option α :=
  files.reverse.findSome? value

private theorem lastOf_append {α : Type} (value : String → Option α) (xs ys : List String) :
    lastOf value (xs ++ ys) = (lastOf value ys).or (lastOf value xs) := by
  rw [lastOf, List.reverse_append, List.findSome?_append, lastOf, lastOf]

private theorem lastOf_singleton {α : Type} (value : String → Option α) (f : String) :
    lastOf value [f] = value f := by
  rw [lastOf, List.reverse_singleton, List.findSome?_singleton]

/-- The value that a file gives to a setting, seen from the folder `root`. -/
def settingIn (d : Disk) (root key f : String) : Option Json :=
  ((settings d f).get? key).map (anchoredSetting d (Path.dirname f) root key)

/-- The value that a file gives to an option of the compiler. -/
def optionIn (d : Disk) (name f : String) : Option Json :=
  (option? (settings d f) name).map (anchoredOption (Path.dirname f) name)

/-- The settings are those of the files in a line, the last one first, seen from `root`. -/
structure Gathers (d : Disk) (root : String) (files : List String) (config : Fields) : Prop where
  mergeable : Mergeable config
  noBases : config.get? "extends" = none
  hasOptions : (config.get? "compilerOptions").isSome =
    files.any fun f => ((settings d f).get? "compilerOptions").isSome
  setting : ∀ key, key ≠ "extends" → key ≠ "compilerOptions" →
    config.get? key = lastOf (settingIn d root key) files
  option : ∀ name, option? config name = lastOf (optionIn d name) files

theorem Mergeable.nil : Mergeable [] :=
  ⟨Fields.Distinct.nil, .inl rfl⟩

theorem Mergeable.without {config : Fields} (h : Mergeable config) {name : String}
    (hname : name ≠ "compilerOptions") : Mergeable (config.without name) := by
  refine ⟨h.distinct.without name, ?_⟩
  rw [Fields.get?_without, if_neg hname.symm]
  exact h.options

namespace Gathers

variable {root : String} {files : List String}

theorem nil (d : Disk) (root : String) : Gathers d root [] [] :=
  ⟨Mergeable.nil, rfl, rfl, fun _ _ _ => rfl, fun _ => rfl⟩

/-- A file that sets nothing adds nothing. -/
theorem of_settings_eq_nil {f : String} (h : settings d f = []) : Gathers d root [f] [] := by
  refine ⟨Mergeable.nil, rfl, ?_, fun key _ _ => ?_, fun name => ?_⟩
  · rw [List.any_cons, List.any_nil, h]
    rfl
  · rw [lastOf_singleton, settingIn, h]
    rfl
  · rw [lastOf_singleton, optionIn, h]
    rfl

/-- The anchored settings of one file, without what it extends. -/
theorem of_anchored {f : String} {anchored : Fields}
    (h : Anchored d (Path.dirname f) root (settings d f) anchored) :
    Gathers d root [f] (anchored.without "extends") := by
  have hkeep : (anchored.without "extends").get? "compilerOptions" =
      anchored.get? "compilerOptions" := by
    rw [Fields.get?_without, if_neg (by decide)]
  refine ⟨h.mergeable.without (by decide), ?_, ?_, fun key hkey hoptions => ?_, fun name => ?_⟩
  · rw [Fields.get?_without, if_pos rfl]
  · rw [hkeep, h.hasOptions, List.any_cons, List.any_nil, Bool.or_false]
  · rw [Fields.get?_without, if_neg hkey, h.setting key hoptions, lastOf_singleton, settingIn]
  · rw [option?, hkeep, ← option?, h.option, lastOf_singleton, optionIn]

/-- **Merging** puts one line after the other. -/
theorem merge {more : List String} {base child : Fields} (hbase : Gathers d root files base)
    (hchild : Gathers d root more child) :
    Gathers d root (files ++ more) (Config.merge base child) := by
  have h := merged_merge hbase.mergeable hchild.mergeable
  refine ⟨h.mergeable, ?_, ?_, fun key hkey hoptions => ?_, fun name => ?_⟩
  · rw [h.setting _ (by decide), hchild.noBases, hbase.noBases]
    rfl
  · rw [h.hasOptions, hchild.hasOptions, hbase.hasOptions, List.any_append, Bool.or_comm]
  · rw [h.setting key hoptions, hchild.setting key hkey hoptions, hbase.setting key hkey hoptions,
      lastOf_append]
  · rw [h.option, hchild.option, hbase.option, lastOf_append]

/-- Bases that are merged in turn put their lines in a row. -/
theorem foldlM {line : String → List String} {level : String → Except Failure Fields}
    {bs : List String} {init : Fields} (hinit : Gathers d root files init)
    (h : ∀ b ∈ bs, ∃ m, level b = .ok m ∧ Gathers d root (line b) m) :
    ∃ merged, bs.foldlM (fun merged b => (level b).map (Config.merge merged)) init = .ok merged ∧
      Gathers d root (files ++ bs.flatMap line) merged := by
  induction bs generalizing init files with
  | nil => exact ⟨init, rfl, by rwa [List.flatMap_nil, List.append_nil]⟩
  | cons b rest ih =>
    obtain ⟨m, hm, hgathers⟩ := h b List.mem_cons_self
    obtain ⟨merged, hmerged, hline⟩ :=
      ih (hinit.merge hgathers) fun c hc => h c (List.mem_cons_of_mem _ hc)
    refine ⟨merged, ?_, by rwa [List.flatMap_cons, ← List.append_assoc]⟩
    rw [List.foldlM_cons, hm]
    exact hmerged

end Gathers

/-- Bases that are merged in turn are all loaded. -/
theorem exists_level_of_foldlM {level : String → Except Failure Fields} {bs : List String}
    {init merged : Fields}
    (h : bs.foldlM (fun merged b => (level b).map (merge merged)) init = .ok merged) :
    ∀ b ∈ bs, ∃ m, level b = .ok m := by
  induction bs generalizing init with
  | nil => exact fun b hb => absurd hb List.not_mem_nil
  | cons c rest ih =>
    rw [List.foldlM_cons] at h
    obtain ⟨next, hnext, hrest⟩ := Except.bind_eq_ok_iff.mp h
    obtain ⟨m, hm, -⟩ := Except.map_eq_ok_iff.mp hnext
    intro b hb
    rcases List.mem_cons.mp hb with rfl | hb
    · exact ⟨m, hm⟩
    · exact ih hrest b hb

end Config

end ApiOutline
