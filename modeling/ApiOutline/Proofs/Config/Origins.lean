import ApiOutline.Proofs.Config.Circles

/-!
# Where the lists of paths come from

Every setting of a loaded configuration, the options of the compiler apart, is that of one file:
a file that loading comes to, with its lists of paths seen from the folder of the first file
(`Sourced`). Merging keeps this, since a setting is taken whole, and so it holds at every level of a
chain. Nothing is asked of the files here. A file that comes back, or says in an odd form what it
extends, adds no settings of its own making.

So a list of paths is one of two things (`exists_origin_of_loadChain`): as it is written in a file
that stands in the folder of the first one, or rewritten entry by entry, from a file that stands
elsewhere.
-/

namespace ApiOutline

namespace Config

open Json (Fields)

variable {d : Disk} {start root f : String} {chain : List String} {strict : Bool}

/-- Every setting is that of a file which loading `start` comes to, seen from the folder `root`. -/
structure Sourced (d : Disk) (start root : String) (config : Fields) : Prop where
  distinct : config.Distinct
  origin : ∀ key, key ≠ "compilerOptions" → ∀ value, config.get? key = some value →
    ∃ chain f, Reached d start chain f ∧ settingIn d root key f = some value

namespace Sourced

theorem nil (d : Disk) (start root : String) : Sourced d start root [] :=
  ⟨.nil, fun _ _ _ h => by cases h⟩

theorem merge {base child : Fields} (hbase : Sourced d start root base)
    (hchild : Sourced d start root child) : Sourced d start root (Config.merge base child) := by
  refine ⟨distinct_merge hbase.distinct child, fun key hkey value h => ?_⟩
  rw [get?_merge base hchild.distinct hkey, Option.or_eq_some_iff] at h
  rcases h with h | ⟨-, h⟩
  · exact hchild.origin key hkey value h
  · exact hbase.origin key hkey value h

/-- The anchored settings of a file that is come to, without what it extends. -/
private theorem of_anchor (hreached : Reached d start chain f) (hf : Path.isAbsolute f = true)
    {anchored : Fields} (hdistinct : (settings d f).Distinct)
    (h : anchor d (settings d f) (Path.dirname f) root = .ok anchored) :
    Sourced d start root (anchored.without "extends") := by
  obtain ⟨anchored', h', hanchored, hget⟩ :=
    exists_anchor_values (d := d) (Path.isAbsolute_dirname hf) root hdistinct
  obtain rfl : anchored' = anchored := Except.ok.inj (h'.symm.trans h)
  refine ⟨hanchored.without _, fun key hkey value hvalue => ⟨chain, f, hreached, ?_⟩⟩
  rw [Fields.get?_without] at hvalue
  split_ifs at hvalue
  rw [settingIn, ← hvalue, hget]
  congr 1
  exact funext fun value => (if_neg hkey).symm

end Sourced

/-- **One level** of loading, with all below it, takes its settings from files that are come to. -/
theorem sourced_of_loadLevel (hstart : Path.isAbsolute start = true) {fuel : Nat}
    (hreached : Reached d start chain f) {merged : Fields}
    (h : (loadLevel d root strict fuel chain f).result = .ok merged) :
    Sourced d start root merged := by
  -- the induction is on how many files may still extend one another
  induction fuel generalizing chain f merged with
  | zero => cases h
  | succ fuel ih =>
    rw [loadLevel] at h
    split at h
    · exact Outcome.eq_of_result_settle h ▸ .nil d start root
    next hfresh =>
    obtain ⟨config, hload, h⟩ := Outcome.result_andThen_eq_ok_iff.mp h
    have hsettings := settings_of_loadWithin_strict (d.limits.nestingBelow_le _) hload
    split at h
    · exact Except.ok.inj h ▸ .nil d start root
    obtain ⟨anchored, hanchor, h⟩ := Outcome.result_andThen_eq_ok_iff.mp h
    rw [Outcome.result_ofPath, Except.mapError_eq_ok_iff] at hanchor
    have hown : Sourced d start root (anchored.without "extends") := by
      refine .of_anchor hreached (hreached.isAbsolute hstart) ?_ (hsettings ▸ hanchor)
      exact hsettings ▸ (distinct_of_loadWithin hload).names
    dsimp only at h
    split at h
    · exact Except.ok.inj h ▸ hown
    · exact Except.ok.inj h ▸ hown
    next value hvalue hextends =>
    split at h
    · exact Outcome.eq_of_result_settle h ▸ hown
    next names hnames =>
    obtain ⟨below, hbelow, h⟩ := Outcome.result_andThen_eq_ok_iff.mp h
    rw [Outcome.result_foldlM] at hbelow
    refine Except.ok.inj h ▸ Sourced.merge ?_ hown
    -- every base that is found is one file further down the chain
    refine Except.of_foldlM_eq_ok hbelow (.nil d start root) fun name hname b c hb hc => ?_
    split at hc
    · exact Outcome.eq_of_result_settle hc ▸ hb
    next base hbase =>
    obtain ⟨m, hm, hc⟩ := Outcome.result_andThen_eq_ok_iff.mp hc
    refine Except.ok.inj hc ▸ hb.merge (ih (.base hreached ?_ ?_) hm)
    · simpa using hfresh
    · rw [get?_extends_of_anchor hanchor] at hextends
      rw [bases, hsettings, hextends, Option.bind_some, hnames, Option.getD_some]
      exact List.mem_filterMap.mpr ⟨name, hname, hbase⟩

/-- **A list of paths** of a loaded configuration is that of a file which loading comes to. It is as
it is written there if the file stands in the folder of the first one, and otherwise its entries are
seen from that folder. -/
theorem exists_origin_of_loadChain (hcwd : Path.isAbsolute d.cwd = true) {path : String}
    {config : Fields} (h : (loadChain d path strict).result = .ok config) {key : String}
    (hkey : key ∈ pathLists) {items : List Json} (hitems : config.get? key = some (.arr items)) :
    ∃ chain f raws, Reached d (d.absolute path) chain f ∧
      (settings d f).get? key = some (.arr raws) ∧
      items = if Path.normalize (Path.dirname f) =
          Path.normalize (Path.dirname (d.absolute path)) then raws
        else raws.map (seenFrom d (Path.dirname f) (Path.dirname (d.absolute path))) := by
  have hstart : Path.isAbsolute (d.absolute path) = true :=
    Path.isAbsolute_absolute hcwd path
  have hsourced := sourced_of_loadLevel hstart .start h
  have hoptions : key ≠ "compilerOptions" := by
    rintro rfl
    exact absurd hkey (by decide)
  obtain ⟨chain, f, hreached, hsetting⟩ := hsourced.origin key hoptions _ hitems
  obtain ⟨raw, hraw, hvalue⟩ := Option.map_eq_some_iff.mp hsetting
  rw [anchoredSetting] at hvalue
  -- only a list becomes a list
  split_ifs at hvalue with hlist
  · cases raw with
    | arr raws =>
      exact ⟨chain, f, raws, hreached, hraw, by
        rw [if_neg hlist.2]; exact (Json.arr.inj hvalue).symm⟩
    | _ => cases hvalue
  · subst hvalue
    have hsame : Path.normalize (Path.dirname f) =
        Path.normalize (Path.dirname (d.absolute path)) := by
      by_contra hne
      exact hlist ⟨hkey, hne⟩
    exact ⟨chain, f, items, hreached, hraw, (if_pos hsame).symm⟩

end Config

end ApiOutline
