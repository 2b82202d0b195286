import ApiOutline.Proofs.Path.Names

/-!
# Paths that mirror one another

A file below one folder has its place below another folder under the same way and with another
extension. Here are the parts of that: a normal path with an extension is taken apart into the names
of its folder, a stem and the extension (`Cut`); the deepest folder above some paths begins all of
them (`exists_common`); the way from a folder to what lies below it is the rest of the names; and
joining a folder and a way spells the names of both.

All of this is said of the names of paths. Whether a path begins with one slash or with two is kept
by joining and by extensions, but not by a common folder, which always begins with one.
-/

namespace ApiOutline

namespace Path

variable {root : String} {steps : List String}

theorem names_spell_of_isName (hr : IsRoot root) (h : ∀ n ∈ steps, IsName n) :
    names (spell root steps) = steps :=
  names_spell hr fun n hn => (h n hn).toIsStep

/-- A path in its shortest spelling: a root, and names below it. -/
def IsNormal (p : String) : Prop :=
  ∃ root names, IsRoot root ∧ (∀ n ∈ names, IsName n) ∧ p = spell root names

/-! ### Stems and extensions -/

/-- What comes before the last name does not depend on it. -/
theorem exists_toList_spell (hr : IsRoot root) (steps : List String) :
    ∃ front, ∀ s, (spell root (steps ++ [s])).toList = front ++ '/' :: s.toList := by
  by_cases hne : steps = []
  · subst hne
    rcases hr with rfl | rfl
    · exact ⟨[], fun s => by simp [spell]⟩
    · exact ⟨['/'], fun s => by simp [spell]⟩
  · refine ⟨(spell root steps).toList, fun s => ?_⟩
    rw [spell_append_singleton root hne]
    simp

theorem basename_of_toList {p name : String} (front : List Char)
    (hp : p.toList = front ++ '/' :: name.toList) (h : '/' ∉ name.toList) : basename p = name := by
  rw [basename, hp, cutLast_append h]
  exact String.ofList_toList

/-- A name that is joined is the last one. -/
private theorem basename_join {name : String} (h : '/' ∉ name.toList) (dir : String) :
    basename (join dir name) = name := by
  have habs : isAbsolute name = false :=
    isAbsolute_eq_false_iff.mpr fun _ hcs => h (hcs ▸ List.mem_cons_self)
  rw [join, if_neg (by simp [habs])]
  by_cases hdir : dir = ""
  · rw [if_pos (by simp [hdir]), hdir, String.empty_append, basename, cutLast_eq_none h]
  · by_cases hend : Text.endsWith dir "/" = true
    · rw [if_pos (by simp [hend])]
      obtain ⟨q, rfl⟩ := exists_eq_append_of_endsWith hend
      exact basename_of_toList q.toList (by simp) h
    · rw [if_neg (by simp [hdir, hend])]
      exact basename_of_toList dir.toList (by simp) h

/-- The extension is told by the last name. -/
theorem extension_eq_of_basename {p q : String} (h : basename p = basename q) :
    extension p = extension q := by
  rw [extension, extension, splitExtension, splitExtension, h]
  split
  · split <;> rfl
  · rfl

theorem extension_join {name : String} (h : '/' ∉ name.toList) (dir : String) :
    extension (join dir name) = extension name := by
  refine extension_eq_of_basename ?_
  rw [basename_join h, basename, cutLast_eq_none h]

/-- A normal path is spelled from the names of its folder, a stem and its extension. -/
structure Cut (p root : String) (folder : List String) (stem : String) : Prop where
  isRoot : IsRoot root
  isName_folder : ∀ n ∈ folder, IsName n
  isName_stem : IsName stem
  isName_last : IsName (stem ++ extension p)
  spelled : p = spell root (folder ++ [stem ++ extension p])
  base : (splitExtension p).1 = spell root (folder ++ [stem])

namespace Cut

variable {p stem : String} {folder : List String}

theorem isName_left {rest : List String} (h : Cut p root (folder ++ rest) stem) :
    ∀ n ∈ folder, IsName n :=
  fun n hn => h.isName_folder n (List.mem_append_left _ hn)

/-- Below a folder, a name in the place of the last one is reached by names. -/
theorem isName_way {rest : List String} (h : Cut p root (folder ++ rest) stem) {name : String}
    (hname : IsName name) : ∀ n ∈ rest ++ [name], IsName n :=
  List.forall_mem_append.mpr ⟨fun n hn => h.isName_folder n (List.mem_append_right _ hn),
    by simpa using hname⟩

theorem rootOf_eq (h : Cut p root folder stem) : rootOf p = root := by
  rw [h.spelled]
  refine rootOf_spell h.isRoot (isStep_append_singleton (fun n hn => ?_) h.isName_last.toIsStep)
  exact (h.isName_folder n hn).toIsStep

theorem names_base (h : Cut p root folder stem) :
    names (splitExtension p).1 = folder ++ [stem] := by
  rw [h.base]
  refine names_spell_of_isName h.isRoot (List.forall_mem_append.mpr ⟨h.isName_folder, ?_⟩)
  simpa using h.isName_stem

theorem dirname_eq (h : Cut p root folder stem) : dirname p = spell root folder := by
  rw [h.spelled]
  exact dirname_spell h.isRoot (fun n hn => (h.isName_folder n hn).toIsStep)
    h.isName_last.toIsStep

end Cut

/-- More than points before the last one makes a name. -/
private theorem isName_ofList {cs : List Char} (hslash : '/' ∉ cs)
    (hpoints : ¬cs.all (· == '.') = true) : IsName (String.ofList cs) := by
  have hne (points : String) (h : points.toList.all (· == '.') = true) :
      String.ofList cs ≠ points := by
    rintro rfl
    rw [String.toList_ofList] at h
    exact hpoints h
  exact ⟨⟨hne "" rfl, hne "." rfl, by rwa [String.toList_ofList]⟩, hne ".." rfl⟩

/-- A name with an extension has a stem before it, and the stem is a name. -/
theorem exists_stem {p name : String} {front : List Char}
    (hp : p.toList = front ++ '/' :: name.toList) (hslash : '/' ∉ name.toList)
    (hext : extension p ≠ "") :
    ∃ stem, IsName stem ∧ name = stem ++ extension p ∧
      (splitExtension p).1.toList = front ++ '/' :: stem.toList := by
  have hbase := basename_of_toList front hp hslash
  -- there is no extension without a point, nor with nothing but points before the last one
  cases hcut : Text.cutLast '.' name.toList with
  | none =>
    have hsplit : splitExtension p = (p, "") := by
      simp only [splitExtension, hbase, hcut]
    exact absurd (congrArg Prod.snd hsplit) hext
  | some parts =>
    obtain ⟨before, after⟩ := parts
    have hname := cutLast_eq_some hcut
    by_cases hpoints : before.all (· == '.') = true
    · have hsplit : splitExtension p = (p, "") := by
        simp only [splitExtension, hbase, hcut, hpoints, if_true]
      exact absurd (congrArg Prod.snd hsplit) hext
    · have hsplit : splitExtension p =
          (String.ofList (p.toList.take (p.length - after.length - 1)),
            String.ofList ('.' :: after)) := by
        simp only [splitExtension, hbase, hcut, if_neg hpoints]
      have hbefore : '/' ∉ before := fun h => hslash (hname ▸ List.mem_append_left _ h)
      refine ⟨String.ofList before, isName_ofList hbefore hpoints, ?_, ?_⟩
      · rw [extension, hsplit, ← String.toList_inj, hname]
        simp
      · have hlist : p.toList = (front ++ '/' :: before) ++ '.' :: after := by
          rw [hp, hname]
          simp
        have hlength : p.length - after.length - 1 = (front ++ '/' :: before).length := by
          rw [← String.length_toList, hlist, List.length_append, List.length_cons]
          omega
        rw [hsplit, hlength, hlist, List.take_left, String.toList_ofList, String.toList_ofList]

/-- **A normal path with an extension** is taken apart. -/
theorem exists_cut {p : String} (habs : isAbsolute p = true) (hnormal : normalize p = p)
    (hext : extension p ≠ "") : ∃ root folder stem, Cut p root folder stem := by
  obtain ⟨root, steps, hr, hnames, hp⟩ := exists_spell_of_normal habs hnormal
  rcases List.eq_nil_or_concat' steps with rfl | ⟨folder, name, rfl⟩
  · -- a root has no extension
    refine absurd ?_ hext
    rw [hp]
    rcases hr with rfl | rfl <;> decide
  · obtain ⟨front, hfront⟩ := exists_toList_spell hr folder
    obtain ⟨hfolder, hname⟩ := List.forall_mem_append.mp hnames
    have hname : IsName name := hname name (List.mem_singleton_self name)
    obtain ⟨stem, hstem, hparts, hbase⟩ := exists_stem (by rw [hp, hfront]) hname.no_slash hext
    refine ⟨root, folder, stem, hr, hfolder, hstem, hparts ▸ hname, ?_, ?_⟩
    · rw [← hparts]
      exact hp
    · rw [← String.toList_inj, hbase, hfront]

/-- A stem with an extension of some length is a name. -/
theorem isName_append {stem ext : String} (h : IsName stem) (hslash : '/' ∉ ext.toList)
    (hlength : 2 ≤ ext.length) : IsName (stem ++ ext) := by
  -- what is no name has at most two characters
  have hne (short : String) (hshort : short.length ≤ 2) : stem ++ ext ≠ short := by
    rintro rfl
    have hpos : stem.length ≠ 0 := fun hzero => h.ne_empty (by simpa using hzero)
    rw [String.length_append] at hshort
    omega
  refine ⟨⟨hne "" (by decide), hne "." (by decide), ?_⟩, hne ".." (by decide)⟩
  rw [String.toList_append, List.mem_append, not_or]
  exact ⟨h.no_slash, hslash⟩

/-- What is added to a text that is written from names is added to the last one. -/
theorem intercalate_append_last (steps : List String) (stem ext : String) :
    "/".intercalate (steps ++ [stem]) ++ ext = "/".intercalate (steps ++ [stem ++ ext]) := by
  by_cases hne : steps = []
  · simp [hne]
  · rw [String.intercalate_append_of_ne_nil hne (List.cons_ne_nil _ _),
      String.intercalate_append_of_ne_nil hne (List.cons_ne_nil _ _)]
    simp [String.append_assoc]

theorem spell_append_last (root : String) (steps : List String) (stem ext : String) :
    spell root (steps ++ [stem]) ++ ext = spell root (steps ++ [stem ++ ext]) := by
  rw [spell, spell, String.append_assoc, intercalate_append_last]

/-- **Extensions of which none ends another** can be told from the text before them. -/
theorem append_inj_of_suffix_free {exts : List String}
    (hfree : ∀ e ∈ exts, ∀ e' ∈ exts, e.toList <:+ e'.toList → e = e') {e e' s t : String}
    (he : e ∈ exts) (he' : e' ∈ exts) (h : s ++ e = t ++ e') : s = t ∧ e = e' := by
  have hlist : s.toList ++ e.toList = t.toList ++ e'.toList := by
    rw [← String.toList_append, h, String.toList_append]
  -- both end the same text, so one of them ends the other
  have heq : e = e' := by
    rcases List.suffix_or_suffix_of_suffix (List.suffix_append s.toList e.toList)
      (hlist ▸ List.suffix_append t.toList e'.toList) with hsuffix | hsuffix
    · exact hfree e he e' he' hsuffix
    · exact (hfree e' he' e he hsuffix).symm
  subst heq
  exact ⟨String.toList_inj.mp (List.append_cancel_right hlist), rfl⟩

/-! ### Ways -/

theorem commonStart_append_append (shared as bs : List String) :
    commonStart (shared ++ as) (shared ++ bs) = shared ++ commonStart as bs := by
  induction shared with
  | nil => rfl
  | cons s rest ih => rw [List.cons_append, List.cons_append, commonStart, if_pos rfl, ih]; rfl

/-- The way between two paths does not depend on what both begin with. -/
theorem wayBetween_append_append (shared start goal : List String) :
    wayBetween (shared ++ start) (shared ++ goal) = wayBetween start goal := by
  simp only [wayBetween, commonStart_append_append, List.length_append, Nat.add_sub_add_left]
  rw [List.drop_append, List.drop_of_length_le (Nat.le_add_right _ _), Nat.add_sub_cancel_left,
    List.nil_append]

private theorem wayBetween_append (start rest : List String) :
    wayBetween start (start ++ rest) = rest := by
  simpa [wayBetween, commonStart] using wayBetween_append_append start [] rest

/-- The way from a folder to what lies below it. -/
theorem relative_of_names {cwd p folder : String} {way : List String} (hp : p ≠ "")
    (h : names (absolute cwd p) = names (absolute cwd folder) ++ way) (hway : way ≠ []) :
    relative cwd p folder = .ok ("/".intercalate way) := by
  rw [relative, if_neg hp, h, wayBetween_append]
  split
  · exact absurd rfl hway
  · rfl

theorem absolute_of_normal {p : String} (habs : isAbsolute p = true) (hnormal : normalize p = p)
    (cwd : String) : absolute cwd p = p := by
  rw [absolute, join_of_isAbsolute habs, hnormal]

theorem names_absolute_spell (hr : IsRoot root) (h : ∀ n ∈ steps, IsName n) (cwd : String) :
    names (absolute cwd (spell root steps)) = steps := by
  rw [absolute_of_normal (isAbsolute_spell hr steps) (normalize_spell hr h),
    names_spell_of_isName hr h]

/-! ### Common folders -/

theorem commonStart_isPrefix_left (as bs : List String) : commonStart as bs <+: as := by
  induction as generalizing bs with
  | nil => exact List.prefix_rfl
  | cons a as ih =>
    cases bs with
    | nil => exact List.nil_prefix
    | cons b bs =>
      rw [commonStart]
      split
      · exact (List.prefix_cons_inj a).mpr (ih bs)
      · exact List.nil_prefix

theorem commonStart_isPrefix_right (as bs : List String) : commonStart as bs <+: bs := by
  induction as generalizing bs with
  | nil => exact List.nil_prefix
  | cons a as ih =>
    cases bs with
    | nil => exact List.nil_prefix
    | cons b bs =>
      rw [commonStart]
      split
      · next heq =>
        rw [heq]
        exact (List.prefix_cons_inj b).mpr (ih bs)
      · exact List.nil_prefix

/-- What is common to all lists begins each of them. -/
theorem foldl_commonStart_isPrefix {first : List String} {rest : List (List String)}
    {names : List String} (h : names ∈ first :: rest) :
    rest.foldl commonStart first <+: names := by
  induction rest generalizing first names with
  | nil =>
    rw [List.mem_singleton.mp h]
    exact List.prefix_rfl
  | cons second rest ih =>
    -- the fold goes on from what the first two have in common
    have hboth : rest.foldl commonStart (commonStart first second) <+: commonStart first second :=
      ih List.mem_cons_self
    rcases List.mem_cons.mp h with rfl | h
    · exact hboth.trans (commonStart_isPrefix_left _ _)
    · rcases List.mem_cons.mp h with rfl | h
      · exact hboth.trans (commonStart_isPrefix_right _ _)
      · exact ih (List.mem_cons_of_mem _ h)

/-- **The deepest folder** above some normal paths begins the names of all of them. -/
theorem exists_common {paths : List String} (hne : paths ≠ []) (h : ∀ p ∈ paths, IsNormal p) :
    ∃ shared, (∀ n ∈ shared, IsName n) ∧ common paths = spell "/" shared ∧
      ∀ p ∈ paths, shared <+: names p := by
  have hnames : ∀ p ∈ paths, ∀ n ∈ names p, IsName n := by
    intro p hp
    obtain ⟨root, steps, hr, hsteps, rfl⟩ := h p hp
    rwa [names_spell_of_isName hr hsteps]
  have hparts : (paths.map fun p => (names p).filter (· ≠ ".")) = paths.map names := by
    refine List.map_congr_left fun p hp => ?_
    exact List.filter_eq_self.mpr fun n hn => by simpa using (hnames p hp n hn).ne_dot
  cases paths with
  | nil => exact absurd rfl hne
  | cons first rest =>
    have hshared : ∀ p ∈ first :: rest,
        (rest.map names).foldl commonStart (names first) <+: names p := fun p hp =>
      foldl_commonStart_isPrefix (by simpa using List.mem_map_of_mem (f := names) hp)
    refine ⟨_, fun n hn => ?_, ?_, hshared⟩
    · exact hnames first List.mem_cons_self n ((hshared first List.mem_cons_self).subset hn)
    · rw [common, hparts]
      rfl

/-! ### Joining a way -/

theorem intercalate_ne_empty (h : ∀ s ∈ steps, IsStep s) (hne : steps ≠ []) :
    "/".intercalate steps ≠ "" := by
  intro hempty
  have hnames := names_intercalate h
  rw [hempty] at hnames
  exact hne hnames.symm

theorem join_append {p : String} (h : isAbsolute p = false) (hne : p ≠ "") (dir q : String) :
    join dir (p ++ q) = join dir p ++ q := by
  have habs : isAbsolute (p ++ q) = false := by
    refine isAbsolute_eq_false_iff.mpr fun cs hcs => ?_
    obtain ⟨c, rest, hp⟩ := List.exists_cons_of_ne_nil
      (fun hnil => hne (String.toList_inj.mp hnil))
    rw [String.toList_append, hp, List.cons_append] at hcs
    exact isAbsolute_eq_false_iff.mp h rest (by rw [hp, (List.cons.inj hcs).1])
  simp only [join, habs, h, Bool.false_eq_true, if_false]
  split_ifs <;> simp only [String.append_assoc]

/-- **Joining a folder and a way** spells the names of both. -/
theorem join_intercalate (hr : IsRoot root) (h : ∀ n ∈ steps, IsName n) {way : List String}
    (hway : ∀ n ∈ way, IsName n) (hne : way ≠ []) :
    join (spell root steps) ("/".intercalate way) = spell root (steps ++ way) := by
  have h : ∀ s ∈ steps, IsStep s := fun s hs => (h s hs).toIsStep
  -- only the first name of the way meets the folder; what comes after it is kept as it is
  obtain ⟨s, rest, rfl⟩ := List.exists_cons_of_ne_nil hne
  have hs : IsStep s := (hway s List.mem_cons_self).toIsStep
  by_cases hrest : rest = []
  · rw [hrest, String.intercalate_singleton, join_spell hr h hs]
  · rw [String.intercalate_cons_of_ne_nil hrest, String.append_assoc,
      join_append hs.isAbsolute_eq_false hs.ne_empty, join_spell hr h hs, spell, spell,
      List.append_cons steps s rest, String.intercalate_append_of_ne_nil (by simp) hrest]
    simp only [String.append_assoc]

end Path

end ApiOutline
