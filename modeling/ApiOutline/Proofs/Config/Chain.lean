import ApiOutline.Proofs.Config.Bases
import ApiOutline.Proofs.Config.Linear

/-!
# Loading a chain

Loading a chain of configurations gathers the line of its files (`loadChain_gathers`), as long as
every file that is come to loads by itself and says in the meant form what it extends and which
options it has. Nothing is asked of the entries of `extends`, which may lead nowhere or in a circle,
nor of links on the disk.

The loader has room for so many files that extend one another, and in a file that so many others
extend, for so many containers one inside the other. `HasRoom` says that nothing goes beyond these
limits of the disk; it is exactly the condition under which there is a result.
-/

namespace ApiOutline

namespace Config

open Json (Fields)

variable {d : Disk} {start f : String} {chain : List String}

/-! ### The places that are come to -/

/-- Loading `start` comes to a file that the files of a chain extend, innermost first. -/
inductive Reached (d : Disk) (start : String) : List String → String → Prop
  | start : Reached d start [] start
  | base {chain : List String} {f b : String} (h : Reached d start chain f) (hfresh : f ∉ chain)
      (hb : b ∈ bases d f) : Reached d start (f :: chain) b

/-- Whether a value of `extends` has the meant form: nothing, one text or a list of texts. -/
def isExtension : Json → Bool
  | .null => true
  | value => (baseNames value).isSome

/-- Settings that say in the meant form what a file extends and which options it has. -/
structure Regular (config : Fields) : Prop where
  bases : (config.get? "extends").all isExtension = true
  options : (config.get? "compilerOptions").all isObject = true

instance Regular.decidable (config : Fields) : Decidable (Regular config) :=
  decidable_of_iff ((config.get? "extends").all isExtension = true ∧
    (config.get? "compilerOptions").all isObject = true) ⟨fun h => ⟨h.1, h.2⟩, fun h => ⟨h.1, h.2⟩⟩

/-- There is room for every file that is come to: its chain is short enough, and its containers
are not nested too deep for the place that it has in the chain. -/
structure HasRoom (d : Disk) (start : String) : Prop where
  chain : ∀ {chain f}, Reached d start chain f → chain.length ≤ d.limits.chain
  file : ∀ {chain f}, Reached d start chain f → f ∉ chain →
    ∃ fields, (loadWithin (d.limits.nestingBelow chain.length) d f false true).result = .ok fields

/-- A base of a file with an absolute path has an absolute path. -/
private theorem isAbsolute_of_mem_baseCandidates {value dir p : String}
    (hdir : Path.isAbsolute dir = true) (h : p ∈ baseCandidates value dir) :
    Path.isAbsolute p = true := by
  rw [baseCandidates] at h
  dsimp only at h
  split_ifs at h
  · rw [List.mem_singleton.mp h]
    exact Path.isAbsolute_normalize (Path.isAbsolute_join hdir value)
  · have hbase := Path.isAbsolute_normalize (Path.isAbsolute_join hdir value)
    rcases List.mem_pair.mp h with rfl | rfl
    · exact hbase
    · exact Path.isAbsolute_append hbase _
  · obtain ⟨above, habove, hp⟩ := List.mem_flatMap.mp h
    have habs := holds_of_mem_ancestors (Path.isAbsolute · = true) hdir
      (fun _ => Path.isAbsolute_dirname) habove
    have hbase := Path.isAbsolute_join (Path.isAbsolute_join habs "node_modules") value
    simp only [List.mem_cons, List.not_mem_nil, or_false] at hp
    rcases hp with rfl | rfl | rfl
    · exact hbase
    · exact Path.isAbsolute_append hbase _
    · exact Path.isAbsolute_join hbase _

private theorem isAbsolute_of_mem_bases (hf : Path.isAbsolute f = true) {b : String}
    (h : b ∈ bases d f) : Path.isAbsolute b = true := by
  obtain ⟨name, -, hname⟩ := List.mem_filterMap.mp h
  exact isAbsolute_of_mem_baseCandidates (Path.isAbsolute_dirname hf)
    (List.mem_of_find?_eq_some hname)

theorem Reached.isAbsolute (h : Reached d start chain f) (hstart : Path.isAbsolute start = true) :
    Path.isAbsolute f = true := by
  induction h with
  | start => exact hstart
  | base _ _ hb ih => exact isAbsolute_of_mem_bases ih hb

/-! ### One level -/

theorem Regular.mergeable {config : Fields} (h : Regular config)
    (hdistinct : config.DistinctWithin) : Mergeable config := by
  refine ⟨hdistinct.names, ?_⟩
  have hoptions := h.options
  cases hget : config.get? "compilerOptions" with
  | none => exact .inl rfl
  | some value =>
    rw [hget] at hoptions
    cases value with
    | obj options => exact .inr ⟨options, rfl, hdistinct.inner hget⟩
    | _ => cases hoptions

theorem Regular.exists_names {config : Fields} (h : Regular config) :
    config.get? "extends" = none ∨ config.get? "extends" = some .null ∨
      ∃ value names, config.get? "extends" = some value ∧ baseNames value = some names := by
  have hbases := h.bases
  cases hget : config.get? "extends" with
  | none => exact .inl rfl
  | some value =>
    rw [hget] at hbases
    cases value with
    | null => exact .inr (.inl rfl)
    | str text => exact .inr (.inr ⟨_, [text], rfl, rfl⟩)
    | arr items => exact .inr (.inr ⟨_, _, rfl, Option.eq_some_of_isSome hbases⟩)
    | _ => cases hbases

/-- Entries that lead nowhere are passed over, and the others are loaded and merged in turn. -/
private theorem result_foldlM_names (root : String) (fuel : Nat) (names : List String)
    (init : Fields) :
    (names.foldlM (fun merged name =>
      match resolveBase d name (Path.dirname f) with
      | none => Outcome.settle false (.baseNotFound name f) merged
      | some base => do
        return merge merged (← loadLevel d root false fuel (f :: chain) base)) init).result =
    (names.filterMap fun name => resolveBase d name (Path.dirname f)).foldlM
      (fun merged b => (loadLevel d root false fuel (f :: chain) b).result.map (merge merged))
      init := by
  rw [Outcome.result_foldlM]
  induction names generalizing init with
  | nil => rfl
  | cons name rest ih =>
    rw [List.foldlM_cons, List.filterMap_cons]
    cases hbase : resolveBase d name (Path.dirname f) with
    | none => exact ih init
    | some base =>
      dsimp only
      rw [List.foldlM_cons, Outcome.bind_eq, Outcome.result_andThen]
      cases (loadLevel d root false fuel (f :: chain) base).result with
      | error failure => rfl
      | ok m => exact ih (merge init m)

theorem settings_of_loadWithin {room : Nat} (hroom : room ≤ d.limits.nesting) {config : Fields}
    (h : (loadWithin room d f false true).result = .ok config) : settings d f = config := by
  rw [settings, load, result_loadWithin_of_le hroom h]

/-- What is left to do at a level once its file is loaded: nothing for a file that sets nothing,
and otherwise its bases. -/
theorem result_loadLevel_of_ne_nil (root : String) {fuel : Nat} (hfresh : f ∉ chain)
    {config anchored : Fields}
    (hload : (loadWithin (d.limits.nestingBelow chain.length) d f false true).result = .ok config)
    (hne : config ≠ []) (hanchor : anchor d config (Path.dirname f) root = .ok anchored) :
    (anchored.get? "extends" = none ∨ anchored.get? "extends" = some .null →
      (loadLevel d root false (fuel + 1) chain f).result = .ok (anchored.without "extends")) ∧
    ∀ value names, anchored.get? "extends" = some value → baseNames value = some names →
      (loadLevel d root false (fuel + 1) chain f).result =
        ((names.filterMap fun name => resolveBase d name (Path.dirname f)).foldlM (fun merged b =>
          (loadLevel d root false fuel (f :: chain) b).result.map (merge merged)) []).map
          fun merged => merge merged (anchored.without "extends") := by
  have hchain : ¬chain.contains f = true := by simpa using hfresh
  have hempty : ¬List.isEmpty config = true := by simpa using hne
  have hpaths : (Outcome.ofPath (anchor d config (Path.dirname f) root)).result = .ok anchored := by
    rw [hanchor]
    rfl
  rw [loadLevel, if_neg hchain, Outcome.bind_eq, Outcome.result_andThen, hload]
  dsimp only [Bind.bind, Except.bind]
  rw [if_neg hempty, Outcome.result_andThen, hpaths]
  dsimp only [Bind.bind, Except.bind]
  constructor
  · rintro (hextends | hextends) <;> rw [hextends] <;> rfl
  · intro value names hextends hnames
    rw [hextends]
    split
    · next hnone => cases hnone
    · next hnull =>
      obtain rfl := Option.some.inj hnull
      cases hnames
    · next value' _ hvalue =>
      obtain rfl := Option.some.inj hvalue
      rw [hnames]
      dsimp only
      rw [Outcome.result_andThen_pure]
      exact congrArg _ (result_foldlM_names root fuel names [])

/-- **One level** of loading: the settings of the file itself, over those of its bases in turn. -/
theorem exists_own_of_loadWithin (root : String) {fuel : Nat} (hfresh : f ∉ chain)
    (hf : Path.isAbsolute f = true) {config : Fields}
    (hload : (loadWithin (d.limits.nestingBelow chain.length) d f false true).result = .ok config)
    (hregular : Regular config) :
    ∃ own, Gathers d root [f] own ∧
      (bases d f = [] ∧ (loadLevel d root false (fuel + 1) chain f).result = .ok own ∨
        (loadLevel d root false (fuel + 1) chain f).result =
          ((bases d f).foldlM (fun merged b =>
            (loadLevel d root false fuel (f :: chain) b).result.map (merge merged)) []).map
            fun merged => merge merged own) := by
  have hsettings := settings_of_loadWithin (d.limits.nestingBelow_le _) hload
  rcases eq_or_ne config [] with hnil | hne
  · -- the loader stops at once, and there are no bases
    refine ⟨[], .of_settings_eq_nil (hsettings.trans hnil), .inl ⟨?_, ?_⟩⟩
    · rw [bases, hsettings, hnil]
      rfl
    · have hchain : ¬chain.contains f = true := by simpa using hfresh
      rw [loadLevel, if_neg hchain, Outcome.bind_eq, Outcome.result_andThen, hload, hnil]
      rfl
  · obtain ⟨anchored, hanchor, hanchored⟩ := exists_anchor (d := d) (Path.isAbsolute_dirname hf)
      root (hregular.mergeable (distinct_of_loadWithin hload))
    have hextends : anchored.get? "extends" = config.get? "extends" := by
      have hid : anchoredSetting d (Path.dirname f) root "extends" = id :=
        funext fun value => if_neg fun hlist => absurd hlist.1 (by decide)
      rw [hanchored.setting _ (by decide), hid, Option.map_id, id]
    obtain ⟨hlone, hbases⟩ := result_loadLevel_of_ne_nil root hfresh hload hne hanchor
    refine ⟨_, .of_anchored (hsettings ▸ hanchored), ?_⟩
    rw [hextends] at hlone hbases
    rw [bases, hsettings]
    rcases hregular.exists_names with hnone | hnull | ⟨value, names, hvalue, hnames⟩
    · exact .inl ⟨by rw [hnone]; rfl, hlone (.inl hnone)⟩
    · exact .inl ⟨by rw [hnull]; rfl, hlone (.inr hnull)⟩
    · refine .inr ?_
      rw [hvalue, Option.bind_some, hnames, Option.getD_some]
      exact hbases value names hvalue hnames

/-- A level that gives settings has loaded its file, in the room that it has there. -/
private theorem exists_loadWithin_of_loadLevel {root : String} {fuel : Nat} (hfresh : f ∉ chain)
    {merged : Fields} (h : (loadLevel d root false (fuel + 1) chain f).result = .ok merged) :
    ∃ config,
      (loadWithin (d.limits.nestingBelow chain.length) d f false true).result = .ok config := by
  have hchain : ¬chain.contains f = true := by simpa using hfresh
  rw [loadLevel, if_neg hchain, Outcome.bind_eq] at h
  obtain ⟨config, hconfig, -⟩ := Outcome.result_andThen_eq_ok_iff.mp h
  exact ⟨config, hconfig⟩

/-- A file that comes back in its chain is taken as empty. -/
private theorem result_loadLevel_of_mem {root : String} {fuel : Nat} (h : f ∈ chain) :
    (loadLevel d root false (fuel + 1) chain f).result = .ok [] := by
  rw [loadLevel, if_pos (by simpa using h)]
  rfl

/-! ### All levels -/

section

variable (hstart : Path.isAbsolute start = true)
  (hregular : ∀ {chain f}, Reached d start chain f →
    ∃ fields, (load d f false true).result = .ok fields ∧ Regular fields)

include hregular in
/-- What loads at a place in a chain is regular. -/
private theorem regular_of_loadWithin {room : Nat} (hroom : room ≤ d.limits.nesting)
    (hreached : Reached d start chain f) {config : Fields}
    (h : (loadWithin room d f false true).result = .ok config) : Regular config := by
  obtain ⟨fields, hload, hfields⟩ := hregular hreached
  rw [load, result_loadWithin_of_le hroom h] at hload
  exact Except.ok.inj hload ▸ hfields

include hstart hregular in
/-- Where there is room, a level gathers the line of its file. -/
private theorem exists_loadLevel_gathers (hroom : HasRoom d start) (root : String) {fuel : Nat}
    (hreached : Reached d start chain f) (hfuel : chain.length + fuel = d.limits.chain + 1) :
    ∃ merged, (loadLevel d root false fuel chain f).result = .ok merged ∧
      Gathers d root (linear d chain f) merged := by
  -- the induction is on how many files may still extend one another; the chain grows as it shrinks
  induction fuel generalizing chain f with
  | zero => exact absurd (hroom.chain hreached) (by omega)
  | succ fuel ih =>
    by_cases hfresh : f ∈ chain
    · exact ⟨[], result_loadLevel_of_mem hfresh, linear_of_mem hfresh ▸ Gathers.nil d root⟩
    · obtain ⟨config, hload⟩ := hroom.file hreached hfresh
      obtain ⟨own, hown, hlevel⟩ := exists_own_of_loadWithin root hfresh
        (hreached.isAbsolute hstart) hload
        (regular_of_loadWithin hregular (d.limits.nestingBelow_le _) hreached hload)
      rw [linear_of_not_mem hfresh]
      rcases hlevel with ⟨hbases, hlevel⟩ | hlevel
      · exact ⟨own, hlevel, by rwa [hbases, List.flatMap_nil, List.nil_append]⟩
      · -- every base is a place that is come to, one file further down the chain
        have hlevels : ∀ b ∈ bases d f, ∃ m,
            (loadLevel d root false fuel (f :: chain) b).result = .ok m ∧
              Gathers d root (linear d (f :: chain) b) m :=
          fun b hb => ih (.base hreached hfresh hb) (by rw [List.length_cons]; omega)
        obtain ⟨merged, hmerged, hgathers⟩ := (Gathers.nil d root).foldlM hlevels
        refine ⟨_, by rw [hlevel, hmerged]; rfl, ?_⟩
        rw [List.nil_append] at hgathers
        exact hgathers.merge hown

include hstart hregular in
/-- When the first level gives settings, so does every level that is come to. -/
theorem exists_loadLevel_of_reached {root : String} {merged : Fields}
    (h : (loadLevel d root false (d.limits.chain + 1) [] start).result = .ok merged)
    (hreached : Reached d start chain f) :
    ∃ fuel merged, chain.length + fuel = d.limits.chain ∧
      (loadLevel d root false (fuel + 1) chain f).result = .ok merged := by
  induction hreached with
  | start => exact ⟨d.limits.chain, merged, Nat.zero_add _, h⟩
  | @base chain f b hreached hfresh hb ih =>
    obtain ⟨fuel, merged, hfuel, hlevel⟩ := ih
    obtain ⟨config, hload⟩ := exists_loadWithin_of_loadLevel hfresh hlevel
    obtain ⟨own, -, hown⟩ := exists_own_of_loadWithin root hfresh (hreached.isAbsolute hstart) hload
      (regular_of_loadWithin hregular (d.limits.nestingBelow_le _) hreached hload)
    rcases hown with ⟨hbases, -⟩ | hown
    · exact absurd hb (by simp [hbases])
    · rw [hown] at hlevel
      obtain ⟨_, hfold, -⟩ := Except.map_eq_ok_iff.mp hlevel
      obtain ⟨m, hm⟩ := exists_level_of_foldlM hfold b hb
      -- the level of the base gave settings, so one more file could extend another
      cases fuel with
      | zero => cases hm
      | succ fuel => exact ⟨fuel, m, by rw [List.length_cons]; omega, hm⟩

end

/-- **Loading a chain gathers the line of its files.** It gives settings exactly when there is room
for every file that is come to. -/
theorem loadChain_gathers (hcwd : Path.isAbsolute d.cwd = true) (path : String)
    (hregular : ∀ {chain f}, Reached d (d.absolute path) chain f →
      ∃ fields, (load d f false true).result = .ok fields ∧ Regular fields) :
    (∀ merged, (loadChain d path false).result = .ok merged →
      Gathers d (Path.dirname (d.absolute path)) (linear d [] (d.absolute path)) merged) ∧
    ((∃ merged, (loadChain d path false).result = .ok merged) ↔ HasRoom d (d.absolute path)) := by
  have hstart : Path.isAbsolute (d.absolute path) = true :=
    Path.isAbsolute_normalize (Path.isAbsolute_join hcwd path)
  have hroom (merged : Fields) (h : (loadChain d path false).result = .ok merged) :
      HasRoom d (d.absolute path) := by
    refine ⟨fun hreached => ?_, fun hreached hfresh => ?_⟩
    · obtain ⟨fuel, _, hfuel, -⟩ := exists_loadLevel_of_reached hstart hregular h hreached
      omega
    · obtain ⟨fuel, _, -, hlevel⟩ := exists_loadLevel_of_reached hstart hregular h hreached
      exact exists_loadWithin_of_loadLevel hfresh hlevel
  have hgathers (h : HasRoom d (d.absolute path)) : ∃ merged,
      (loadChain d path false).result = .ok merged ∧
        Gathers d (Path.dirname (d.absolute path)) (linear d [] (d.absolute path)) merged :=
    exists_loadLevel_gathers hstart hregular h _ .start (Nat.zero_add _)
  refine ⟨fun merged h => ?_, fun ⟨merged, h⟩ => hroom merged h, fun h => ?_⟩
  · obtain ⟨merged', h', hmerged⟩ := hgathers (hroom merged h)
    rw [h] at h'
    exact Except.ok.inj h' ▸ hmerged
  · obtain ⟨merged, h, -⟩ := hgathers h
    exact ⟨merged, h⟩

/-! ### Two files that extend each other -/

/-- The file `t.json` extends `b.json` and a file that is not there, and `b.json` extends
`t.json`. -/
def circle : Disk where
  entries := [
    ("b.json", .file ⟨Utf8.encode "\x7b\"extends\":\"./t.json\",\"x\":1\x7d", none, none⟩),
    ("t.json", .file ⟨Utf8.encode "\x7b\"extends\":[\"./b\",\"./c\"]\x7d", none, none⟩)]
  cwd := "/"
  limits := .uniform 8

theorem bases_circle :
    bases circle "/t.json" = ["/b.json"] ∧ bases circle "/b.json" = ["/t.json"] := by
  constructor <;> decide +kernel

theorem reached_circle (h : Reached circle "/t.json" chain f) :
    chain = [] ∧ f = "/t.json" ∨ chain = ["/t.json"] ∧ f = "/b.json" ∨
      chain = ["/b.json", "/t.json"] ∧ f = "/t.json" := by
  induction h with
  | start => exact .inl ⟨rfl, rfl⟩
  | base _ hfresh hmem ih =>
    rcases ih with ⟨rfl, rfl⟩ | ⟨rfl, rfl⟩ | ⟨rfl, rfl⟩
    · rw [bases_circle.1] at hmem
      exact .inr (.inl ⟨rfl, List.mem_singleton.mp hmem⟩)
    · rw [bases_circle.2] at hmem
      exact .inr (.inr ⟨rfl, List.mem_singleton.mp hmem⟩)
    · exact absurd (by simp) hfresh

private theorem linear_circle : linear circle [] "/t.json" = ["/b.json", "/t.json"] := by
  rw [linear_of_not_mem (by simp), bases_circle.1, List.flatMap_singleton,
    linear_of_not_mem (by simp), bases_circle.2, List.flatMap_singleton, linear_of_mem (by simp)]
  rfl

/-- In a circle every file has its word once. -/
theorem loadChain_circle_gathers :
    ∃ merged, (loadChain circle "t.json" false).result = .ok merged ∧
      Gathers circle "/" ["/b.json", "/t.json"] merged := by
  have hstart : circle.absolute "t.json" = "/t.json" := by decide +kernel
  have hdir : Path.dirname "/t.json" = "/" := by decide +kernel
  have hregular : ∀ {chain f}, Reached circle (circle.absolute "t.json") chain f →
      ∃ fields, (load circle f false true).result = .ok fields ∧ Regular fields := by
    intro chain f h
    rw [hstart] at h
    rcases reached_circle h with ⟨-, rfl⟩ | ⟨-, rfl⟩ | ⟨-, rfl⟩
    all_goals decide +kernel
  have hresult : ∃ merged, (loadChain circle "t.json" false).result = .ok merged ∧
      Regular merged := by decide +kernel
  obtain ⟨merged, hmerged, -⟩ := hresult
  have hgathers := (loadChain_gathers (by decide) "t.json" hregular).1 merged hmerged
  rw [hstart, hdir, linear_circle] at hgathers
  exact ⟨merged, hmerged, hgathers⟩

end Config

end ApiOutline
