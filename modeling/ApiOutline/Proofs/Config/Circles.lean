import ApiOutline.Proofs.Config.Chain
import ApiOutline.Proofs.Config.Strictness
import ApiOutline.Proofs.Disk.Places
import ApiOutline.Proofs.Path.Layout

/-!
# Files that come back

A file that extends itself is found out by its path: the loader compares texts. This is enough as
long as no file on the way has two spellings. Entries of `extends` that are seen from a folder or
from the root are normalized, so they spell a file in one way only (`Direct`). A bare name is not:
it is put behind `node_modules` as it is, and with an empty segment, a point or a step up in it a
file is come to under a spelling of its own. Two leading slashes, which normalizing keeps, and bytes
that are spelled one by one have the same effect. Entries without any of this are `Clean`.

Where all entries are clean and there are no links, no file is read twice along a chain, so a chain
is no longer than there are files, and the loader comes to an end (`loadChain_reads_once`). A bare
name with a step up shows what happens otherwise (`reached_respelled`).
-/

namespace ApiOutline

namespace Path

/-- What climbing leaves on the stack was there before, or is the segment climbed. -/
private theorem mem_climb {stack : List String} {segment n : String}
    (h : n ∈ climb true stack segment) : n ∈ stack ∨ n = segment := by
  rw [climb.eq_def] at h
  split at h
  · exact .inl h
  split at h
  · next hup =>
    split at h
    · exact .inl h
    · split at h
      · exact (List.mem_cons.mp h).symm.imp_right fun heq => heq.trans hup.symm
      · exact .inl (List.mem_cons_of_mem _ h)
  · exact (List.mem_cons.mp h).symm

/-- What is left once the steps up are taken was there before. -/
private theorem mem_of_mem_collapse {parts : List String} {n : String}
    (h : n ∈ collapse true parts) :
    n ∈ parts := by
  have run : ∀ stack : List String, n ∈ parts.foldl (climb true) stack → n ∈ stack ∨ n ∈ parts := by
    clear h
    induction parts with
    | nil => exact fun stack h => .inl h
    | cons segment rest ih =>
      intro stack h
      rcases ih _ h with h | h
      · rcases mem_climb h with h | rfl
        · exact .inl h
        · exact .inr List.mem_cons_self
      · exact .inr (List.mem_cons_of_mem _ h)
  exact (run [] (List.mem_reverse.mp h)).resolve_left List.not_mem_nil

end Path

namespace Config

open ApiOutline.Path (IsName spell)

/-! ### Paths with one spelling -/

/-- A path leads down from the root by names that are spelled in one way. -/
def Direct (p : String) : Prop :=
  ∃ names, (∀ n ∈ names, IsName n ∧ Text.Whole n) ∧ p = spell "/" names

/-- An entry of `extends` spells what it names in one way. -/
structure Clean (value : String) : Prop where
  whole : Text.Whole value
  rootOf_ne : Path.rootOf value ≠ "//"
  bare : Text.startsWith value "." = false → Path.isAbsolute value = false →
    ∀ s ∈ Path.segments value, IsName s

namespace Direct

variable {p dir value : String}

private theorem spell_append {names rest : List String} (h : ∀ n ∈ names, IsName n ∧ Text.Whole n)
    (hrest : ∀ n ∈ rest, IsName n ∧ Text.Whole n) : Direct (spell "/" (names ++ rest)) :=
  ⟨names ++ rest, List.forall_mem_append.mpr ⟨h, hrest⟩, rfl⟩

theorem dirname (h : Direct p) : Direct (Path.dirname p) := by
  obtain ⟨names, hnames, rfl⟩ := h
  rcases List.eq_nil_or_concat' names with rfl | ⟨init, n, rfl⟩
  · exact ⟨[], by simp, by decide⟩
  · obtain ⟨hinit, hn⟩ := List.forall_mem_append.mp hnames
    rw [Path.dirname_spell (.inl rfl) (fun s hs => (hinit s hs).1.toIsStep)
      (hn n (List.mem_singleton_self n)).1.toIsStep]
    exact ⟨init, hinit, rfl⟩

/-- The extension is added to the last name, or is a name of its own. -/
private theorem append_json (h : Direct p) : Direct (p ++ ".json") := by
  obtain ⟨names, hnames, rfl⟩ := h
  have hwhole : Text.Whole ".json" := Text.whole_of_ascii (by decide)
  rcases List.eq_nil_or_concat' names with rfl | ⟨init, n, rfl⟩
  · exact ⟨[".json"], by simpa using ⟨by decide, hwhole⟩, by decide⟩
  · obtain ⟨hinit, hn⟩ := List.forall_mem_append.mp hnames
    obtain ⟨hname, hn⟩ := hn n (List.mem_singleton_self n)
    have hlast : IsName (n ++ ".json") := Path.isName_append hname (by decide) (by decide)
    rw [Path.spell_append_last]
    exact spell_append hinit (by simpa using ⟨hlast, hn.append hwhole rfl (by decide)⟩)

/-- An entry that is seen from a folder or from the root is normalized. -/
theorem normalize_join (h : Direct dir) (hwhole : Text.Whole value)
    (hroot : Path.rootOf value ≠ "//") : Direct (Path.normalize (Path.join dir value)) := by
  have hvalue : ∀ n ∈ Path.names value, Text.Whole n :=
    fun n hn => hwhole.segment (Path.mem_names.mp hn).1
  cases hrel : Path.isAbsolute value with
  | true =>
    rw [Path.join_of_isAbsolute hrel, Path.normalize_of_isAbsolute hrel,
      (Path.isRoot_rootOf hrel).resolve_right hroot]
    refine ⟨_, fun n hn => ⟨?_, hvalue n (Path.mem_of_mem_collapse hn)⟩, rfl⟩
    exact Path.isName_collapse (fun _ hs => Path.no_slash_of_mem_names hs) n hn
  | false =>
    obtain ⟨names, hnames, rfl⟩ := h
    have hsteps : ∀ s ∈ names, Path.IsStep s := fun s hs => (hnames s hs).1.toIsStep
    rw [Path.normalize_join (Path.isAbsolute_spell (.inl rfl) names) hrel,
      Path.rootOf_spell (.inl rfl) hsteps, Path.names_spell (.inl rfl) hsteps]
    refine ⟨_, fun n hn => ⟨?_, ?_⟩, rfl⟩
    · refine Path.isName_collapse (fun s hs => ?_) n hn
      rcases List.mem_append.mp hs with hs | hs
      · exact (hnames s hs).1.no_slash
      · exact Path.no_slash_of_mem_names hs
    · rcases List.mem_append.mp (Path.mem_of_mem_collapse hn) with hn | hn
      · exact (hnames n hn).2
      · exact hvalue n hn

/-- Names that are joined are kept as they are. -/
theorem join (h : Direct dir) (hwhole : Text.Whole value)
    (hnames : ∀ s ∈ Path.segments value, IsName s) : Direct (Path.join dir value) := by
  obtain ⟨names, hdir, rfl⟩ := h
  rw [← Path.intercalate_segments value, Path.join_intercalate (.inl rfl)
    (fun n hn => (hdir n hn).1) hnames (by simp [Path.segments])]
  exact spell_append hdir fun s hs => ⟨hnames s hs, hwhole.segment hs⟩

/-- **A clean entry** leads to paths with one spelling. -/
theorem of_mem_baseCandidates (hdir : Direct dir) (hvalue : Clean value)
    (h : p ∈ baseCandidates value dir) : Direct p := by
  rw [baseCandidates] at h
  dsimp only at h
  split_ifs at h with hseen hjson
  · rw [List.mem_singleton.mp h]
    exact hdir.normalize_join hvalue.whole hvalue.rootOf_ne
  · have hbase := hdir.normalize_join hvalue.whole hvalue.rootOf_ne
    rcases List.mem_pair.mp h with rfl | rfl
    · exact hbase
    · exact hbase.append_json
  · obtain ⟨above, habove, hp⟩ := List.mem_flatMap.mp h
    simp only [Bool.or_eq_true, not_or, Bool.not_eq_true] at hseen
    have habove := holds_of_mem_ancestors Direct hdir (fun _ => Direct.dirname) habove
    have hfolder : Direct (Path.join above "node_modules") :=
      habove.join (Text.whole_of_ascii (by decide)) (by decide)
    have hbase := hfolder.join hvalue.whole (hvalue.bare hseen.1 hseen.2)
    simp only [List.mem_cons, List.not_mem_nil, or_false] at hp
    rcases hp with rfl | rfl | rfl
    · exact hbase
    · exact hbase.append_json
    · exact hbase.join (Text.whole_of_ascii (by decide)) (by decide)

end Direct

/-- The names of a path with one spelling are the way to the file at it. -/
private theorem wayTo_of_direct {d : Disk} (hfree : d.LinkFree) {names : List String}
    (hnames : ∀ n ∈ names, IsName n ∧ Text.Whole n) (hfile : d.isFile (spell "/" names) = true) :
    d.wayTo (spell "/" names) = some names ∧ names ∈ d.files := by
  obtain ⟨contents, hfind⟩ := Disk.exists_find_of_isFile hfile
  have hcanonical : names.map Disk.canonical = names :=
    (List.map_congr_left fun n hn => Disk.canonical_eq_self (hnames n hn).2).trans (List.map_id _)
  obtain ⟨hway, hmem⟩ := Disk.wayTo_spell hfree (fun n hn => (hnames n hn).1) hfind
  rw [hcanonical] at hway hmem
  exact ⟨hway, hmem rfl⟩

/-- Paths with one spelling lead to one file only if they are equal. -/
private theorem Direct.eq_of_wayTo {d : Disk} (hfree : d.LinkFree) {p q : String} (hp : Direct p)
    (hq : Direct q) (hpfile : d.isFile p = true) (hqfile : d.isFile q = true)
    (h : d.wayTo p = d.wayTo q) : p = q := by
  obtain ⟨names, hnames, rfl⟩ := hp
  obtain ⟨names', hnames', rfl⟩ := hq
  rw [(wayTo_of_direct hfree hnames hpfile).1, (wayTo_of_direct hfree hnames' hqfile).1] at h
  rw [Option.some.inj h]

/-! ### Chains of clean files -/

/-- The entries of `extends` in a file, in order. -/
def extended (d : Disk) (f : String) : List String :=
  (((settings d f).get? "extends").bind baseNames).getD []

variable {d : Disk} {start f : String} {chain : List String}

theorem Reached.nodup (h : Reached d start chain f) : chain.Nodup := by
  induction h with
  | start => exact List.nodup_nil
  | base _ hfresh _ ih => exact List.nodup_cons.mpr ⟨hfresh, ih⟩

/-- What extends something is a file, and so is what it extends. -/
theorem Reached.isFile (h : Reached d start chain f) :
    (∀ g ∈ chain, d.isFile g = true) ∧ (chain ≠ [] → d.isFile f = true) := by
  induction h with
  | start => exact ⟨fun _ hg => absurd hg List.not_mem_nil, fun hne => absurd rfl hne⟩
  | base _ _ hb ih =>
    refine ⟨List.forall_mem_cons.mpr ⟨isFile_of_mem_bases hb, ih.1⟩, fun _ => ?_⟩
    obtain ⟨name, -, hname⟩ := List.mem_filterMap.mp hb
    exact List.find?_some hname

section

variable (hstart : Direct start)
  (hclean : ∀ {chain f}, Reached d start chain f → ∀ value ∈ extended d f, Clean value)

include hstart hclean

/-- Clean entries lead from one path with one spelling to the next. -/
private theorem Reached.direct (h : Reached d start chain f) :
    (∀ g ∈ chain, Direct g) ∧ Direct f := by
  induction h with
  | start => exact ⟨fun _ hg => absurd hg List.not_mem_nil, hstart⟩
  | base h _ hb ih =>
    obtain ⟨hchain, hf⟩ := ih
    obtain ⟨name, hname, hresolve⟩ := List.mem_filterMap.mp hb
    exact ⟨List.forall_mem_cons.mpr ⟨hf, hchain⟩,
      hf.dirname.of_mem_baseCandidates (hclean h name hname) (List.mem_of_find?_eq_some hresolve)⟩

/-- The files of a chain stand at different places. -/
private theorem Reached.nodup_wayTo (hfree : d.LinkFree) (h : Reached d start chain f) :
    (chain.map d.wayTo).Nodup := by
  obtain ⟨hdirect, -⟩ := h.direct hstart hclean
  obtain ⟨hfiles, -⟩ := h.isFile
  refine List.Nodup.map_on (fun p hp q hq heq => ?_) h.nodup
  exact (hdirect p hp).eq_of_wayTo hfree (hdirect q hq) (hfiles p hp) (hfiles q hq) heq

/-- A file that stands where one of its chain stands is that one. -/
private theorem Reached.mem_of_wayTo (hfree : d.LinkFree) (h : Reached d start chain f) {g : String}
    (hg : g ∈ chain) (heq : d.wayTo g = d.wayTo f) : f ∈ chain := by
  obtain ⟨hdirect, hf⟩ := h.direct hstart hclean
  obtain ⟨hfiles, hfile⟩ := h.isFile
  exact (hdirect g hg).eq_of_wayTo hfree hf (hfiles g hg) (hfile (List.ne_nil_of_mem hg)) heq ▸ hg

/-- **A chain is no longer than there are files.** -/
theorem Reached.length_le (hfree : d.LinkFree) (h : Reached d start chain f) :
    chain.length ≤ d.files.length := by
  obtain ⟨hdirect, -⟩ := h.direct hstart hclean
  have hways : ∀ way ∈ chain.map d.wayTo, way ∈ d.files.map some := by
    intro way hway
    obtain ⟨g, hg, rfl⟩ := List.mem_map.mp hway
    obtain ⟨names, hnames, rfl⟩ := hdirect g hg
    obtain ⟨hwayTo, hmem⟩ := wayTo_of_direct hfree hnames (h.isFile.1 _ hg)
    rw [hwayTo]
    exact List.mem_map_of_mem hmem
  have hle := ((h.nodup_wayTo hstart hclean hfree).subperm hways).length_le
  rwa [List.length_map, List.length_map] at hle

end

/-! ### The loader -/

/-- Anchoring a list leaves every other setting as it is. -/
private theorem get?_of_anchorList {dir root name other : String} (hother : other ≠ name)
    {fields next : Json.Fields} (h : anchorList d dir root fields name = .ok next) :
    next.get? other = fields.get? other := by
  rw [anchorList] at h
  split at h
  · obtain ⟨entries, -, rfl⟩ := Except.map_eq_ok_iff.mp h
    rw [Json.Fields.get?_put, if_neg hother]
  · rw [Except.ok.inj h]

private theorem get?_of_anchorLists {dir root other : String} {names : List String}
    (hother : other ∉ names) {fields anchored : Json.Fields}
    (h : names.foldlM (anchorList d dir root) fields = .ok anchored) :
    anchored.get? other = fields.get? other := by
  induction names generalizing fields with
  | nil => rw [Except.ok.inj h]
  | cons name rest ih =>
    rw [List.mem_cons, not_or] at hother
    rw [List.foldlM_cons] at h
    obtain ⟨next, hnext, h⟩ := Except.bind_eq_ok_iff.mp h
    rw [ih hother.2 h, get?_of_anchorList hother.1 hnext]

/-- Anchoring leaves what a file extends as it is. -/
theorem get?_extends_of_anchor {config anchored : Json.Fields} {dir root : String}
    (h : anchor d config dir root = .ok anchored) :
    anchored.get? "extends" = config.get? "extends" := by
  have hlists : ∀ {fields : Json.Fields}, fields.get? "extends" = config.get? "extends" →
      (if Path.normalize dir = Path.normalize root then .ok fields
        else pathLists.foldlM (anchorList d dir root) fields) = Except.ok anchored →
      anchored.get? "extends" = config.get? "extends" := by
    intro fields hfields h
    split at h
    · rw [← Except.ok.inj h, hfields]
    · rw [get?_of_anchorLists (by decide) h, hfields]
  cases hoptions : config.get? "compilerOptions" with
  | none =>
    rw [anchor, hoptions] at h
    exact hlists rfl h
  | some value =>
    rw [anchor, hoptions] at h
    cases value with
    | obj options => exact hlists (by rw [Json.Fields.get?_put, if_neg (by decide)]) h
    | _ => exact hlists rfl h

/-- A file that loads sets the same in either mode, with whatever room it has. -/
theorem settings_of_loadWithin_strict {strict : Bool} {room : Nat} (hroom : room ≤ d.limits.nesting)
    {config : Json.Fields} (h : (loadWithin room d f strict true).result = .ok config) :
    settings d f = config := by
  refine settings_of_loadWithin hroom ?_
  cases strict with
  | false => exact h
  | true =>
    rcases Outcome.sharpens.loadWithin room d f true with ⟨-, heq⟩ | ⟨_, _, -, hstopped, -⟩
    · rw [← heq, h]
    · rw [hstopped] at h
      cases h

private theorem result_settle_ne_longChain {α : Type} (strict : Bool) (problem : Problem)
    (fallback : α) :
    (Outcome.settle strict problem fallback).result ≠ .error .longChain := by
  cases strict <;> nofun

private theorem result_loadWithin_ne_longChain (room : Nat) (strict : Bool) :
    (loadWithin room d f strict true).result ≠ .error .longChain := by
  intro h
  rw [loadWithin] at h
  split at h
  · exact result_settle_ne_longChain strict _ _ h
  · cases h
  split at h
  · cases h
  simp only [parse, if_true] at h
  split at h
  · exact result_settle_ne_longChain strict _ _ h
  split at h
  · cases h
  · exact result_settle_ne_longChain strict _ _ h
  · exact result_settle_ne_longChain strict _ _ h
  · cases h

/-- A level runs out of room only if one further down the chain does. -/
private theorem exists_base_of_longChain {root : String} {strict : Bool} {fuel : Nat}
    (h : (loadLevel d root strict (fuel + 1) chain f).result = .error .longChain) :
    f ∉ chain ∧ ∃ b ∈ bases d f,
      (loadLevel d root strict fuel (f :: chain) b).result = .error .longChain := by
  rw [loadLevel] at h
  split at h
  · exact absurd h (result_settle_ne_longChain strict _ _)
  next hfresh =>
  rw [Outcome.bind_eq, Outcome.result_andThen] at h
  rcases Except.bind_eq_error_iff.mp h with h | ⟨config, hconfig, h⟩
  · exact absurd h (result_loadWithin_ne_longChain _ strict)
  split at h
  · cases h
  rw [Outcome.bind_eq, Outcome.result_andThen] at h
  rcases Except.bind_eq_error_iff.mp h with h | ⟨anchored, hanchored, h⟩
  · cases hanchor : anchor d config (Path.dirname f) root with
    | ok anchored =>
      rw [hanchor] at h
      cases h
    | error fault =>
      rw [hanchor] at h
      cases h
  have hextends := get?_extends_of_anchor (Except.mapError_eq_ok_iff.mp hanchored)
  dsimp only at h
  split at h
  · cases h
  · cases h
  next value _ hvalue =>
  split at h
  · exact absurd h (result_settle_ne_longChain strict _ _)
  next names hnames =>
  rw [Outcome.bind_eq, Outcome.result_andThen, Outcome.result_foldlM] at h
  rcases Except.bind_eq_error_iff.mp h with h | ⟨merged, -, h⟩
  swap
  · cases h
  -- the entry at which loading fails leads to a base
  obtain ⟨name, hname, merged, h⟩ := Except.exists_of_foldlM_eq_error h
  split at h
  · exact absurd h (result_settle_ne_longChain strict _ _)
  next base hbase =>
  rw [Outcome.bind_eq, Outcome.result_andThen] at h
  rcases Except.bind_eq_error_iff.mp h with h | ⟨_, -, h⟩
  · refine ⟨by simpa using hfresh, base, List.mem_filterMap.mpr ⟨name, ?_, hbase⟩, h⟩
    rw [settings_of_loadWithin_strict (d.limits.nestingBelow_le _) hconfig, ← hextends, hvalue,
      Option.bind_some, hnames]
    exact hname
  · cases h

/-- **The loader comes to an end** when the disk has no more files than may extend one another. -/
theorem result_loadLevel_ne_longChain (hstart : Direct start)
    (hclean : ∀ {chain f}, Reached d start chain f → ∀ value ∈ extended d f, Clean value)
    (hfree : d.LinkFree) (hfiles : d.files.length ≤ d.limits.chain) (root : String) (strict : Bool)
    {fuel : Nat} (hreached : Reached d start chain f)
    (hfuel : chain.length + fuel = d.limits.chain + 1) :
    (loadLevel d root strict fuel chain f).result ≠ .error .longChain := by
  induction fuel generalizing chain f with
  | zero =>
    have hlength := hreached.length_le hstart hclean hfree
    omega
  | succ fuel ih =>
    intro h
    obtain ⟨hfresh, b, hb, h⟩ := exists_base_of_longChain h
    exact ih (.base hreached hfresh hb) (by rw [List.length_cons]; omega) h

/-- **No file is read twice along a chain** of clean entries on a disk without links. The files
that extend one another stand at different places, so there are no more of them than there are
files; a file that comes back, under whatever spelling, is settled as circular; and the loader comes
to an end, in either mode, when there are no more files than may extend one another. -/
theorem loadChain_reads_once (hfree : d.LinkFree) (path : String)
    (hstart : Direct (d.absolute path))
    (hclean : ∀ {chain f}, Reached d (d.absolute path) chain f →
      ∀ value ∈ extended d f, Clean value) (strict : Bool) :
    (∀ {chain f}, Reached d (d.absolute path) chain f →
      (chain.map d.wayTo).Nodup ∧ (∀ g ∈ chain, d.isFile g = true) ∧
      chain.length ≤ d.files.length ∧
      ∀ g ∈ chain, d.wayTo g = d.wayTo f → ∀ root fuel,
        loadLevel d root strict (fuel + 1) chain f = .settle strict (.circular f) []) ∧
    (d.files.length ≤ d.limits.chain → (loadChain d path strict).result ≠ .error .longChain) := by
  refine ⟨fun h => ?_, fun hfiles => ?_⟩
  · refine ⟨h.nodup_wayTo hstart hclean hfree, h.isFile.1, h.length_le hstart hclean hfree, ?_⟩
    intro g hg heq root fuel
    have hmem := h.mem_of_wayTo hstart hclean hfree hg heq
    rw [loadLevel, if_pos (List.contains_iff_mem.mpr hmem)]
  · exact result_loadLevel_ne_longChain hstart hclean hfree hfiles _ strict .start
      (Nat.zero_add _)

/-- Entries that begin with a point are clean when they are plain. -/
private theorem Clean.of_ascii {value : String} (h : value.toList.all (·.toNat < 0x80) = true)
    (hroot : Path.rootOf value ≠ "//") (hseen : Text.startsWith value "." = true) : Clean value :=
  ⟨Text.whole_of_ascii h, hroot, fun hbare => by rw [hbare] at hseen; cases hseen⟩

/-- In the circle of two files the first one is found out where it comes back. -/
theorem loadChain_reads_once_circle :
    loadLevel circle "/" true 1 ["/b.json", "/t.json"] "/t.json" =
        .settle true (.circular "/t.json") [] ∧
      (loadChain circle "t.json" true).result ≠ .error .longChain := by
  have hfree : circle.LinkFree := by decide
  have habsolute : circle.absolute "t.json" = "/t.json" := by decide +kernel
  have hstart : Direct (circle.absolute "t.json") := by
    rw [habsolute]
    exact ⟨["t.json"], by simpa using ⟨by decide, Text.whole_of_ascii (by decide)⟩, rfl⟩
  have hextended : extended circle "/t.json" = ["./b", "./c"] ∧
      extended circle "/b.json" = ["./t.json"] := by
    constructor <;> decide +kernel
  have hclean : ∀ {chain f}, Reached circle (circle.absolute "t.json") chain f →
      ∀ value ∈ extended circle f, Clean value := by
    intro chain f h value hvalue
    have hmem : value ∈ ["./b", "./c", "./t.json"] := by
      rw [habsolute] at h
      rcases reached_circle h with ⟨-, rfl⟩ | ⟨-, rfl⟩ | ⟨-, rfl⟩
      · rw [hextended.1] at hvalue
        exact List.mem_append_left ["./t.json"] hvalue
      · rw [hextended.2] at hvalue
        exact List.mem_append_right ["./b", "./c"] hvalue
      · rw [hextended.1] at hvalue
        exact List.mem_append_left ["./t.json"] hvalue
    simp only [List.mem_cons, List.not_mem_nil, or_false] at hmem
    rcases hmem with rfl | rfl | rfl <;> exact .of_ascii (by decide) (by decide) (by decide)
  obtain ⟨hchains, hends⟩ := loadChain_reads_once hfree "t.json" hstart hclean true
  refine ⟨?_, hends (by decide)⟩
  have hreached : Reached circle (circle.absolute "t.json") ["/b.json", "/t.json"] "/t.json" := by
    rw [habsolute]
    refine .base (.base .start (by simp) ?_) (by decide) ?_
    · rw [bases_circle.1]
      exact List.mem_cons_self
    · rw [bases_circle.2]
      exact List.mem_cons_self
  obtain ⟨-, -, -, hback⟩ := hchains hreached
  exact hback "/t.json" (by decide) rfl "/" 0

/-! ### A file with two spellings -/

/-- The file `g.json` extends `f.json`, which extends `g.json` by a bare name with steps up. -/
def respelled : Disk where
  entries := [
    ("f.json", .file ⟨Utf8.encode "\x7b\"extends\":\"x/../../g.json\"\x7d", none, none⟩),
    ("g.json", .file ⟨Utf8.encode "\x7b\"extends\":\"./f.json\"\x7d", none, none⟩),
    ("node_modules", .folder [("x", .folder [])])]
  cwd := "/"
  limits := .uniform 8

/-- The loader comes to one file twice in a chain without finding it out: the path is another. -/
theorem reached_respelled : respelled.LinkFree ∧
    Reached respelled "/g.json" ["/f.json", "/g.json"] "/node_modules/x/../../g.json" ∧
    "/node_modules/x/../../g.json" ∉ ["/f.json", "/g.json"] ∧
    respelled.wayTo "/node_modules/x/../../g.json" = respelled.wayTo "/g.json" ∧
    respelled.isFile "/g.json" = true := by
  have hg : bases respelled "/g.json" = ["/f.json"] := by decide +kernel
  have hf : bases respelled "/f.json" = ["/node_modules/x/../../g.json"] := by decide +kernel
  refine ⟨by decide, .base (.base .start (by simp) ?_) (by decide) ?_, by decide, ?_, ?_⟩
  · rw [hg]
    exact List.mem_cons_self
  · rw [hf]
    exact List.mem_cons_self
  · decide +kernel
  · decide +kernel

end Config

end ApiOutline
