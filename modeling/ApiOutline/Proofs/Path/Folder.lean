import ApiOutline.Proofs.Disk.Places
import ApiOutline.Proofs.Path.Layout

/-!
# Paths below a folder

What the operations on paths do below a folder depends on the way from the folder and not on the
folder itself. A `Path.Folder` is an absolute path in its shortest spelling, `Folder.path` goes on
from it by some steps, and each operation is described here by what it does to the steps: joining a
text that stays inside takes its segments one by one (`normalize_join`), the way between two paths
below a folder is the way between their steps (`relative_path`), and the order of two such paths is
the order of the rest (`precedes_path`). Below the root all paths are, so the way from a folder to
any path leads back to that path, however far up it goes before (`normalize_join_relative`); a path
with another root than the folder comes back below that of the folder (`normalize_join_way`).

A text stays inside when none of its steps up leads out of the folder, not even for a moment: a text
that leaves the folder and enters it again by its name means something else elsewhere. Nothing of
the kind can be said of the extension of the folder itself, which is told by its own name.
-/

namespace ApiOutline

/-! ### The order of texts -/

/-- What two texts begin with makes no difference to their order. -/
theorem Text.precedesOn_append_append (shared as bs : List Symbol) :
    Text.precedesOn (shared ++ as) (shared ++ bs) = Text.precedesOn as bs := by
  induction shared with
  | nil => rfl
  | cons a rest ih => simp [Text.precedesOn, ih]

namespace Path

/-! ### Ways that stay inside -/

/-- Adds one segment to a way, innermost first; `none` when it leads out of the folder in which the
way begins. -/
def step? (way : List String) (segment : String) : Option (List String) :=
  if segment = "" || segment = "." then some way
  else if segment = ".." then
    match way with
    | [] => none
    | _ :: rest => some rest
  else some (segment :: way)

/-- Where segments lead from the end of a way, unless they lead out of the folder in which it
begins. -/
def within? (way segments : List String) : Option (List String) :=
  (segments.foldlM step? way.reverse).map List.reverse

@[simp]
theorem within?_nil (way : List String) : within? way [] = some way := by
  simp [within?]

/-- Segments are taken one after the other. -/
theorem within?_append (way segments more : List String) :
    within? way (segments ++ more) = (within? way segments).bind (within? · more) := by
  simp only [within?, List.foldlM_append, Option.bind_eq_bind]
  cases segments.foldlM step? way.reverse <;> simp

/-- Segments that stay inside do so up to every one of them. -/
private theorem within?_isSome_of_append {way segments more : List String}
    (h : (within? way (segments ++ more)).isSome = true) :
    (within? way segments).isSome = true := by
  rw [within?_append] at h
  cases hw : within? way segments with
  | none => rw [hw] at h; cases h
  | some v => rfl

private theorem step?_of_isName {n : String} (h : IsName n) (way : List String) :
    step? way n = some (n :: way) := by
  rw [step?.eq_def, if_neg (by simp [h.ne_empty, h.ne_dot]), if_neg h.ne_up]

theorem within?_singleton {n : String} (h : IsName n) (way : List String) :
    within? way [n] = some (way ++ [n]) := by
  simp [within?, step?_of_isName h]

/-- A step up leaves the last name. -/
theorem within?_up (way : List String) (last : String) :
    within? (way ++ [last]) [".."] = some way := by
  simp [within?, step?]

/-- Segments one by one. -/
theorem within?_cons (way : List String) (s : String) (rest : List String) :
    within? way (s :: rest) = (within? way [s]).bind (within? · rest) :=
  within?_append way [s] rest

/-- As many steps up as there are names left lead back to where these begin. -/
private theorem within?_replicate_up (way names : List String) :
    within? (way ++ names) (List.replicate names.length "..") = some way := by
  induction names using List.reverseRecOn with
  | nil => rw [List.append_nil, List.length_nil, List.replicate_zero, within?_nil]
  | append_singleton names last ih =>
    rw [List.length_append, List.length_singleton, List.replicate_succ, ← List.append_assoc,
      within?_cons, within?_up, Option.bind_some, ih]

/-- Names lead further down. -/
theorem within?_of_isName {names : List String} (h : ∀ n ∈ names, IsName n) (way : List String) :
    within? way names = some (way ++ names) := by
  induction names generalizing way with
  | nil => simp
  | cons n rest ih =>
    obtain ⟨hn, hrest⟩ := List.forall_mem_cons.mp h
    rw [List.append_cons way n rest, ← ih hrest, ← List.singleton_append, within?_append,
      within?_singleton hn, Option.bind_some]

/-- Segments that stay in the folder do not count. -/
private theorem within?_filter_ne {skipped : String} (hskip : skipped = "" ∨ skipped = ".")
    (way segments : List String) :
    within? way (segments.filter (· ≠ skipped)) = within? way segments := by
  simp only [within?]
  congr 1
  generalize way.reverse = stack
  induction segments generalizing stack with
  | nil => rfl
  | cons s rest ih =>
    by_cases hs : s = skipped
    · have hstep : step? stack s = some stack := if_pos (by simpa [hs] using hskip)
      rw [List.filter_cons_of_neg (by simpa using hs), List.foldlM_cons, hstep]
      exact ih stack
    · rw [List.filter_cons_of_pos (by simpa using hs), List.foldlM_cons, List.foldlM_cons]
      cases step? stack s with
      | none => rfl
      | some next => exact ih next

/-- Empty segments do not count. -/
theorem within?_filter (way segments : List String) :
    within? way (segments.filter (· ≠ "")) = within? way segments :=
  within?_filter_ne (.inl rfl) way segments

/-- Points do not count either. -/
theorem within?_filter_dot (way segments : List String) :
    within? way (segments.filter (· ≠ ".")) = within? way segments :=
  within?_filter_ne (.inr rfl) way segments

/-- A way of names stays one. -/
private theorem isName_of_step? {way next : List String} {s : String} (hway : ∀ n ∈ way, IsName n)
    (hs : '/' ∉ s.toList) (h : step? way s = some next) : ∀ n ∈ next, IsName n := by
  rw [step?.eq_def] at h
  split_ifs at h with hskip hup
  · rwa [← Option.some.inj h]
  · cases way with
    | nil => cases h
    | cons top rest =>
      rw [← Option.some.inj h]
      exact fun n hn => hway n (List.mem_cons_of_mem _ hn)
  · rw [← Option.some.inj h]
    simp only [Bool.or_eq_true, decide_eq_true_eq, not_or] at hskip
    exact List.forall_mem_cons.mpr ⟨⟨⟨hskip.1, hskip.2, hs⟩, hup⟩, hway⟩

/-- A step that stays inside is the same step wherever the folder lies. -/
private theorem climb_of_step? {way next : List String} {s : String} (hway : ∀ n ∈ way, IsName n)
    (h : step? way s = some next) (below : List String) :
    climb true (way ++ below) s = next ++ below := by
  rw [step?.eq_def] at h
  rw [climb.eq_def]
  by_cases hskip : (decide (s = "") || decide (s = ".")) = true
  · rw [if_pos hskip] at h ⊢
    rw [Option.some.inj h]
  rw [if_neg hskip] at h ⊢
  by_cases hup : s = ".."
  · rw [if_pos hup] at h ⊢
    cases way with
    | nil => cases h
    | cons top rest =>
      rw [← Option.some.inj h]
      exact if_neg (hway top List.mem_cons_self).ne_up
  · rw [if_neg hup] at h ⊢
    rw [← Option.some.inj h]
    rfl

/-- **Segments that stay inside** lead to the same way wherever the folder lies. -/
theorem collapse_of_within? {folder way segments next : List String}
    (hfolder : ∀ n ∈ folder, IsName n) (hway : ∀ n ∈ way, IsName n)
    (hsegments : ∀ s ∈ segments, '/' ∉ s.toList) (h : within? way segments = some next) :
    collapse true (folder ++ way ++ segments) = folder ++ next ∧ ∀ n ∈ next, IsName n := by
  obtain ⟨stack, hstack, rfl⟩ := Option.map_eq_some_iff.mp h
  -- the invariant of the fold: below the way lies the folder
  have run : ∀ way : List String, (∀ n ∈ way, IsName n) → segments.foldlM step? way = some stack →
      segments.foldl (climb true) (way ++ folder.reverse) = stack ++ folder.reverse ∧
        ∀ n ∈ stack, IsName n := by
    clear h hstack
    induction segments with
    | nil =>
      intro way hway h
      obtain rfl := Option.some.inj h
      exact ⟨rfl, hway⟩
    | cons s rest ih =>
      intro way hway h
      obtain ⟨hs, hrest⟩ := List.forall_mem_cons.mp hsegments
      rw [List.foldlM_cons] at h
      obtain ⟨next, hnext, h⟩ := Option.bind_eq_some_iff.mp h
      rw [List.foldl_cons, climb_of_step? hway hnext]
      exact ih hrest next (isName_of_step? hway hs hnext) h
  have hstart : (folder ++ way).foldl (climb true) [] = way.reverse ++ folder.reverse := by
    have hall := collapse_of_isName (List.forall_mem_append.mpr ⟨hfolder, hway⟩) true
    rw [collapse, List.reverse_eq_iff] at hall
    rw [hall, List.reverse_append]
  obtain ⟨hrun, hnames⟩ := run way.reverse (fun n hn => hway n (List.mem_reverse.mp hn)) hstack
  refine ⟨?_, fun n hn => hnames n (List.mem_reverse.mp hn)⟩
  rw [collapse, List.foldl_append, hstart, hrun, List.reverse_append, List.reverse_reverse]

/-- Where segments lead from names, if they stay inside, are names again. -/
private theorem isName_of_within? {way segments next : List String} (hway : ∀ n ∈ way, IsName n)
    (hsegments : ∀ s ∈ segments, '/' ∉ s.toList) (h : within? way segments = some next) :
    ∀ n ∈ next, IsName n :=
  (@collapse_of_within? [] way segments next (by simp) hway hsegments h).2

/-- Where a relative text leads from the end of a way, if it stays inside. -/
def goal? (way : List String) (text : String) : Option (List String) :=
  if isAbsolute text then none else within? way (segments text)

theorem goal?_eq_some_iff {way next : List String} {text : String} : goal? way text = some next ↔
    isAbsolute text = false ∧ within? way (segments text) = some next := by
  rw [goal?]
  cases isAbsolute text <;> simp

/-- What stays inside leads to names. -/
theorem isName_of_goal? {way next : List String} {text : String} (hway : ∀ n ∈ way, IsName n)
    (h : goal? way text = some next) : ∀ n ∈ next, IsName n :=
  isName_of_within? hway (fun _ hs => not_mem_of_mem_segments hs) (goal?_eq_some_iff.mp h).2

/-- Steps that stay inside the folder in which they begin. -/
structure Inside (steps : List String) : Prop where
  isStep : ∀ s ∈ steps, IsStep s
  within : (within? [] steps).isSome = true

namespace Inside

variable {steps : List String}

theorem of_isName {names : List String} (h : ∀ n ∈ names, IsName n) : Inside names :=
  ⟨fun n hn => (h n hn).toIsStep, by rw [within?_of_isName h]; rfl⟩

theorem nil : Inside [] :=
  .of_isName (by simp)

/-- The names to which steps lead. -/
theorem exists_names (h : Inside steps) : ∃ names, within? [] steps = some names ∧
    ∀ n ∈ names, IsName n := by
  obtain ⟨names, hnames⟩ := Option.isSome_iff_exists.mp h.within
  exact ⟨names, hnames,
    isName_of_within? (by simp) (fun s hs => (h.isStep s hs).no_slash) hnames⟩

theorem of_append {more : List String} (h : Inside (steps ++ more)) : Inside steps :=
  ⟨fun s hs => h.isStep s (List.mem_append_left _ hs), within?_isSome_of_append h.within⟩

theorem of_isPrefix {part : List String} (h : Inside steps) (hpart : part <+: steps) :
    Inside part := by
  obtain ⟨more, rfl⟩ := hpart
  exact h.of_append

theorem append_name (h : Inside steps) {n : String} (hn : IsName n) : Inside (steps ++ [n]) := by
  obtain ⟨names, hnames, -⟩ := h.exists_names
  refine ⟨isStep_append_singleton h.isStep hn.toIsStep, ?_⟩
  rw [within?_append, hnames, Option.bind_some, within?_singleton hn]
  rfl

end Inside

/-! ### Folders -/

/-- An absolute path in its shortest spelling, seen as a folder. -/
structure Folder where
  root : String
  names : List String
  isRoot : IsRoot root
  isName : ∀ n ∈ names, IsName n

namespace Folder

/-- The path that goes on from a folder by some steps. -/
def path (f : Folder) (steps : List String) : String :=
  spell f.root (f.names ++ steps)

variable (f g : Folder) {steps : List String}

private theorem isStep_names : ∀ s ∈ f.names, IsStep s :=
  fun s hs => (f.isName s hs).toIsStep

variable {f}

theorem isStep_append (h : ∀ s ∈ steps, IsStep s) : ∀ s ∈ f.names ++ steps, IsStep s :=
  List.forall_mem_append.mpr ⟨f.isStep_names, h⟩

variable (f)

theorem isAbsolute_path (steps : List String) : isAbsolute (f.path steps) = true :=
  isAbsolute_spell f.isRoot _

variable {f}

private theorem rootOf_path (h : ∀ s ∈ steps, IsStep s) : rootOf (f.path steps) = f.root :=
  rootOf_spell f.isRoot (isStep_append h)

theorem names_path (h : ∀ s ∈ steps, IsStep s) : Path.names (f.path steps) = f.names ++ steps :=
  names_spell f.isRoot (isStep_append h)

/-- Below a folder paths are told apart by their steps. -/
theorem path_inj {steps' : List String} (h : ∀ s ∈ steps, IsStep s) (h' : ∀ s ∈ steps', IsStep s) :
    f.path steps = f.path steps' ↔ steps = steps' := by
  refine ⟨fun heq => ?_, fun heq => by rw [heq]⟩
  obtain ⟨-, hsteps⟩ := spell_injective f.isRoot f.isRoot (isStep_append h) (isStep_append h') heq
  exact List.append_cancel_left hsteps

theorem contains_map_path {ways : List (List String)} (hways : ∀ way ∈ ways, ∀ s ∈ way, IsStep s)
    (h : ∀ s ∈ steps, IsStep s) :
    (ways.map f.path).contains (f.path steps) = ways.contains steps := by
  rw [Bool.eq_iff_iff, List.contains_iff_mem, List.contains_iff_mem, List.mem_map]
  constructor
  · rintro ⟨way, hway, heq⟩
    exact (path_inj (hways way hway) h).mp heq ▸ hway
  · exact fun hmem => ⟨steps, hmem, rfl⟩

theorem join_path (h : ∀ s ∈ steps, IsStep s) {s : String} (hs : IsStep s) :
    join (f.path steps) s = f.path (steps ++ [s]) := by
  rw [path, join_spell f.isRoot (isStep_append h) hs, List.append_assoc, path]

theorem dirname_path (h : ∀ s ∈ steps, IsStep s) {s : String} (hs : IsStep s) :
    dirname (f.path (steps ++ [s])) = f.path steps := by
  rw [path, ← List.append_assoc, dirname_spell f.isRoot (isStep_append h) hs, path]

theorem tidy_path (h : ∀ s ∈ steps, IsStep s) : tidy (f.path steps) = f.path steps :=
  tidy_spell f.isRoot (isStep_append h)

theorem normalize_of_isName (h : ∀ n ∈ steps, IsName n) : normalize (f.path steps) = f.path steps :=
  normalize_spell f.isRoot (List.forall_mem_append.mpr ⟨f.isName, h⟩)

/-- **Joining a text that stays inside** takes its segments one by one. -/
theorem normalize_join (hway : ∀ n ∈ steps, IsName n) {text : String} {next : List String}
    (h : goal? steps text = some next) :
    normalize (join (f.path steps) text) = f.path next := by
  obtain ⟨hrel, hnext⟩ := goal?_eq_some_iff.mp h
  have hsteps : ∀ s ∈ steps, IsStep s := fun s hs => (hway s hs).toIsStep
  rw [← within?_filter] at hnext
  obtain ⟨hcollapse, -⟩ := collapse_of_within? f.isName hway
    (fun s hs => no_slash_of_mem_names hs) hnext
  rw [Path.normalize_join (f.isAbsolute_path steps) hrel, rootOf_path hsteps, names_path hsteps]
  exact congrArg (spell f.root) hcollapse

/-- Normalizing a path takes its steps one by one. -/
theorem normalize_path (h : ∀ s ∈ steps, IsStep s) {names : List String}
    (hnames : within? [] steps = some names) : normalize (f.path steps) = f.path names := by
  obtain ⟨hcollapse, -⟩ := collapse_of_within? f.isName (by simp)
    (fun s hs => (h s hs).no_slash) hnames
  rw [List.append_nil] at hcollapse
  rw [normalize_of_isAbsolute (f.isAbsolute_path steps), rootOf_path h, names_path h, hcollapse,
    path]

private theorem absolute_path (h : ∀ s ∈ steps, IsStep s) {names : List String}
    (hnames : within? [] steps = some names) (cwd : String) :
    absolute cwd (f.path steps) = f.path names := by
  rw [absolute, join_of_isAbsolute (f.isAbsolute_path steps), normalize_path h hnames]

theorem absolute_of_isName (h : ∀ n ∈ steps, IsName n) (cwd : String) :
    absolute cwd (f.path steps) = f.path steps := by
  rw [absolute, join_of_isAbsolute (f.isAbsolute_path steps), normalize_of_isName h]

/-- What is joined to a folder is put behind it segment by segment. -/
theorem join_text {text : String} (h : isAbsolute text = false) :
    join (f.path []) text = f.path (segments text) := by
  have hsegments := intercalate_segments text
  have hne : segments text ≠ [] := by simp [segments]
  rw [path, path, List.append_nil]
  by_cases hnames : f.names = []
  · -- only the root comes before the text
    rw [hnames, List.nil_append, spell, spell, hsegments, String.intercalate_nil,
      String.append_empty, join, if_neg (by simp [h]), if_pos]
    rcases f.isRoot with hr | hr <;> rw [hr] <;> rfl
  · have hempty := ne_empty_of_isAbsolute (isAbsolute_spell f.isRoot f.names)
    have hslash := endsWith_slash_spell f.isStep_names hnames f.root
    rw [join, if_neg (by simp [h]), if_neg (by simp [hempty, hslash]), spell, spell,
      String.intercalate_append_of_ne_nil hnames hne, hsegments]
    simp only [String.append_assoc]

/-! ### Last names -/

/-- What is added to a path is added to its last step. -/
theorem path_append_last (f : Folder) (steps : List String) (s ending : String) :
    f.path (steps ++ [s]) ++ ending = f.path (steps ++ [s ++ ending]) := by
  rw [path, ← List.append_assoc, spell_append_last, List.append_assoc, path]

/-- What comes before the last step does not depend on it. -/
private theorem exists_toList_path (f : Folder) (steps : List String) :
    ∃ front, ∀ s, (f.path (steps ++ [s])).toList = front ++ '/' :: s.toList := by
  obtain ⟨front, hfront⟩ := exists_toList_spell f.isRoot (f.names ++ steps)
  exact ⟨front, fun s => by rw [path, ← List.append_assoc, hfront]⟩

/-- Whether a path has an ending without a slash is told by its last step. -/
theorem endsWith_path (f : Folder) (steps : List String) {s ending : String}
    (h : '/' ∉ ending.toList) :
    Text.endsWith (f.path (steps ++ [s])) ending = Text.endsWith s ending := by
  obtain ⟨front, hfront⟩ := f.exists_toList_path steps
  rw [Bool.eq_iff_iff, Text.endsWith, Text.endsWith, List.isSuffixOf_iff_suffix,
    List.isSuffixOf_iff_suffix, hfront]
  constructor
  · intro hsuffix
    -- an ending that is longer than the last step takes in the slash before it
    rcases List.suffix_or_suffix_of_suffix hsuffix (List.suffix_append front ('/' :: s.toList))
      with hlast | hlast
    · rcases List.suffix_cons_iff.mp hlast with heq | hlast
      · exact absurd (heq ▸ List.mem_cons_self) h
      · exact hlast
    · exact absurd (hlast.subset List.mem_cons_self) h
  · exact fun hsuffix => (hsuffix.trans (List.suffix_cons '/' s.toList)).trans
      (List.suffix_append _ _)

private theorem basename_path (f : Folder) (steps : List String) {s : String} (h : '/' ∉ s.toList) :
    basename (f.path (steps ++ [s])) = s := by
  obtain ⟨front, hfront⟩ := f.exists_toList_path steps
  exact basename_of_toList front (hfront s) h

/-- The extension of a path is that of its last step. -/
theorem extension_path (f : Folder) (steps : List String) {s : String} (h : '/' ∉ s.toList) :
    extension (f.path (steps ++ [s])) = extension s := by
  refine extension_eq_of_basename ?_
  rw [f.basename_path steps h, basename, cutLast_eq_none h]

/-- **Without its extension** a path ends with the stem of its last step. -/
theorem exists_stem_path {s : String} (h : '/' ∉ s.toList) (hext : extension s ≠ "") :
    ∃ stem, IsName stem ∧ s = stem ++ extension s ∧ ∀ (f : Folder) (steps : List String),
      (splitExtension (f.path (steps ++ [s]))).1 = f.path (steps ++ [stem]) := by
  have hstem {p : String} {front : List Char} (hp : p.toList = front ++ '/' :: s.toList) :
      ∃ stem, IsName stem ∧ s = stem ++ extension s ∧
        (splitExtension p).1.toList = front ++ '/' :: stem.toList := by
    have heq : extension p = extension s :=
      extension_eq_of_basename (by
        rw [basename_of_toList front hp h, basename, cutLast_eq_none h])
    rw [← heq] at hext ⊢
    exact exists_stem hp h hext
  -- the stem is told by the last step alone
  obtain ⟨stem, hname, hs, -⟩ := @hstem ("/" ++ s) [] (String.toList_append)
  refine ⟨stem, hname, hs, fun f steps => ?_⟩
  obtain ⟨front, hfront⟩ := f.exists_toList_path steps
  obtain ⟨stem', -, hs', hbase⟩ := hstem (hfront s)
  have hlist := congrArg String.toList (hs.symm.trans hs')
  rw [String.toList_append, String.toList_append] at hlist
  rw [← String.toList_inj, hbase, hfront, List.append_cancel_right hlist]

/-! ### Ways between paths -/

/-- The text of a way. -/
def wayText : List String → String
  | [] => "."
  | s :: rest => "/".intercalate (s :: rest)

theorem wayText_of_ne_nil (h : steps ≠ []) : wayText steps = "/".intercalate steps := by
  cases steps with
  | nil => exact absurd rfl h
  | cons s rest => rfl

theorem wayText_append {rest : List String} (hne : steps ≠ []) (hrest : rest ≠ []) :
    wayText (steps ++ rest) = wayText steps ++ "/" ++ wayText rest := by
  rw [wayText_of_ne_nil hne, wayText_of_ne_nil hrest,
    wayText_of_ne_nil (List.append_ne_nil_of_left_ne_nil hne rest),
    String.intercalate_append_of_ne_nil hne hrest]

/-- The steps of a way are the segments of its text. -/
theorem segments_wayText (hne : steps ≠ []) (h : ∀ s ∈ steps, IsStep s) :
    segments (wayText steps) = steps := by
  rw [wayText_of_ne_nil hne, segments_intercalate hne fun s hs => (h s hs).no_slash]

/-- A way goes up by steps, and down by those of its goal. -/
theorem isStep_wayBetween {start goal : List String} (h : ∀ s ∈ goal, IsStep s) :
    ∀ s ∈ wayBetween start goal, IsStep s := by
  intro s hs
  rcases List.mem_append.mp hs with hs | hs
  · rw [List.eq_of_mem_replicate hs]
    exact ⟨by decide, by decide, by decide⟩
  · exact h s (List.mem_of_mem_drop hs)

/-- The text of a way is relative and not empty. -/
theorem isAbsolute_wayText (h : ∀ s ∈ steps, IsStep s) :
    isAbsolute (wayText steps) = false ∧ wayText steps ≠ "" := by
  cases steps with
  | nil => exact ⟨by decide, by decide⟩
  | cons s rest => exact ⟨isAbsolute_intercalate h, intercalate_ne_empty h (List.cons_ne_nil _ _)⟩

/-- **The way between two paths** whose names begin with those of the folder. -/
theorem relative_of_names {cwd p start : String} {way goal : List String} (hp : p ≠ "")
    (hstart : Path.names (absolute cwd start) = f.names ++ way)
    (hgoal : Path.names (absolute cwd p) = f.names ++ goal) :
    relative cwd p start = .ok (wayText (wayBetween way goal)) := by
  rw [relative, if_neg hp, hstart, hgoal, wayBetween_append_append]
  cases wayBetween way goal <;> rfl

theorem names_absolute_path (h : ∀ s ∈ steps, IsStep s) {names : List String}
    (hnames : within? [] steps = some names) (cwd : String) :
    Path.names (absolute cwd (f.path steps)) = f.names ++ names := by
  have hall := isName_of_within? (by simp) (fun s hs => (h s hs).no_slash) hnames
  rw [absolute_path h hnames, names_path fun n hn => (hall n hn).toIsStep]

/-- The way from the folder to a path below it. -/
theorem relative_path (h : ∀ s ∈ steps, IsStep s) {names : List String}
    (hnames : within? [] steps = some names) (cwd : String) :
    relative cwd (f.path steps) (f.path []) = .ok (wayText names) := by
  have hstart : Path.names (absolute cwd (f.path [])) = f.names ++ [] :=
    names_absolute_path (by simp) rfl cwd
  rw [relative_of_names (ne_empty_of_isAbsolute (f.isAbsolute_path steps)) hstart
    (names_absolute_path h hnames cwd)]
  simp [wayBetween, commonStart]

/-- The way from the folder to what a text leads to. -/
theorem relative_join (hway : ∀ n ∈ steps, IsName n) {text : String} {next : List String}
    (h : goal? steps text = some next) (cwd : String) :
    relative cwd (join (f.path steps) text) (f.path []) = .ok (wayText next) := by
  have hnext := isName_of_goal? hway h
  have habs := isAbsolute_join (f.isAbsolute_path steps) text
  have hstart : Path.names (absolute cwd (f.path [])) = f.names ++ [] :=
    names_absolute_path (by simp) rfl cwd
  have hgoal : Path.names (absolute cwd (join (f.path steps) text)) = f.names ++ next := by
    rw [absolute, join_of_isAbsolute habs, normalize_join hway h,
      names_path fun n hn => (hnext n hn).toIsStep]
  rw [relative_of_names (ne_empty_of_isAbsolute habs) hstart hgoal]
  simp [wayBetween, commonStart]

/-- The text of a way leads where its steps lead. -/
private theorem goal?_wayText_eq (h : ∀ s ∈ steps, IsStep s) (start : List String) :
    goal? start (wayText steps) = within? start steps := by
  rw [goal?, if_neg (by rw [(isAbsolute_wayText h).1]; exact Bool.false_ne_true)]
  cases steps with
  | nil =>
    have hpoint : segments "." = ["."] := by decide
    rw [wayText, hpoint, within?, List.foldlM_cons, step?.eq_def]
    simp
  | cons s rest => rw [segments_wayText (List.cons_ne_nil s rest) h]

/-- The text of a way leads there. -/
theorem goal?_wayText {way : List String} (h : ∀ n ∈ way, IsName n) (start : List String) :
    goal? start (wayText way) = some (start ++ way) := by
  rw [goal?_wayText_eq fun n hn => (h n hn).toIsStep, within?_of_isName h]

/-- **The way between two paths** leads from the one to the other. -/
theorem goal?_wayBetween {goal : List String} (h : ∀ n ∈ goal, IsName n) (start : List String) :
    goal? start (wayText (wayBetween start goal)) = some goal := by
  rw [goal?_wayText_eq (isStep_wayBetween fun n hn => (h n hn).toIsStep), wayBetween]
  obtain ⟨up, hstart⟩ := commonStart_isPrefix_left start goal
  obtain ⟨down, hgoal⟩ := commonStart_isPrefix_right start goal
  generalize commonStart start goal = shared at hstart hgoal ⊢
  subst hstart hgoal
  have hdown := (List.forall_mem_append.mp h).2
  rw [List.length_append, Nat.add_sub_cancel_left, List.drop_left, within?_append,
    within?_replicate_up, Option.bind_some, within?_of_isName hdown]

/-- **The way from a folder to a path** leads to the names of the path, below the root of the
folder. -/
theorem normalize_join_way {folder p cwd way : String} (hfolder : isAbsolute folder = true)
    (hp : isAbsolute p = true) (h : relative cwd p folder = .ok way) :
    normalize (join folder way) = spell (rootOf folder) (collapse true (Path.names p)) := by
  have hname (q : String) : ∀ n ∈ collapse true (Path.names q), IsName n :=
    isName_collapse fun _ hs => no_slash_of_mem_names hs
  have hnames {q : String} (hq : isAbsolute q = true) :
      Path.names (absolute cwd q) = collapse true (Path.names q) := by
    rw [absolute, join_of_isAbsolute hq, normalize_of_isAbsolute hq,
      names_spell (isRoot_rootOf hq) fun n hn => (hname q n hn).toIsStep]
  let top : Folder := ⟨rootOf folder, [], isRoot_rootOf hfolder, List.forall_mem_nil _⟩
  have hway : relative cwd p folder = .ok (wayText (wayBetween
      (collapse true (Path.names folder)) (collapse true (Path.names p)))) :=
    top.relative_of_names (ne_empty_of_isAbsolute hp) (hnames hfolder) (hnames hp)
  obtain rfl := Except.ok.inj (hway.symm.trans h)
  rw [← normalize_join_normalize hfolder, normalize_of_isAbsolute hfolder]
  exact top.normalize_join (hname folder) (goal?_wayBetween (hname p) _)

/-- The way from a folder to a path with the same root leads back to the path, wherever the two
part. -/
theorem normalize_join_relative {folder p cwd way : String} (hfolder : isAbsolute folder = true)
    (hp : isAbsolute p = true) (hp' : normalize p = p) (hroot : rootOf p = rootOf folder)
    (h : relative cwd p folder = .ok way) : normalize (join folder way) = p := by
  rw [normalize_join_way hfolder hp h, ← hroot, ← normalize_of_isAbsolute hp, hp']

/-! ### The order of paths -/

/-- What comes before the steps, and a slash; the folder itself is spelled by that, or by that and a
slash. -/
theorem exists_toList_path_steps (f : Folder) : ∃ front,
    ((f.path []).toList = front ∨ (f.path []).toList = front ++ ['/']) ∧
    ∀ steps, steps ≠ [] →
      (f.path steps).toList = front ++ '/' :: ("/".intercalate steps).toList := by
  by_cases hnames : f.names = []
  · obtain ⟨front, hfront⟩ : ∃ front, f.root.toList = front ++ ['/'] := by
      rcases f.isRoot with hr | hr <;> rw [hr]
      · exact ⟨[], rfl⟩
      · exact ⟨['/'], rfl⟩
    refine ⟨front, .inr ?_, fun steps _ => ?_⟩
    · rw [path, hnames, List.nil_append, spell, String.intercalate_nil, String.append_empty, hfront]
    · rw [path, hnames, List.nil_append, spell, String.toList_append, hfront, List.append_assoc,
        List.singleton_append]
  · refine ⟨(spell f.root f.names).toList, .inl (by rw [path, List.append_nil]),
      fun steps hne => ?_⟩
    rw [path, spell, String.intercalate_append_of_ne_nil hnames hne, spell]
    simp

/-- **The order of two paths** below a folder is that of the rest. -/
theorem precedes_path (f g : Folder) {steps' : List String} (hne : steps ≠ [])
    (hne' : steps' ≠ []) :
    Text.precedes (f.path steps) (f.path steps') =
      Text.precedes (g.path steps) (g.path steps') := by
  have hrest (f : Folder) : Text.precedes (f.path steps) (f.path steps') =
      Text.precedesOn (Text.symbolsOf ('/' :: ("/".intercalate steps).toList))
        (Text.symbolsOf ('/' :: ("/".intercalate steps').toList)) := by
    obtain ⟨front, -, hfront⟩ := f.exists_toList_path_steps
    rw [Text.precedes, Text.symbols, Text.symbols, hfront steps hne, hfront steps' hne',
      Text.symbolsOf_append_cons (by decide), Text.symbolsOf_append_cons (by decide),
      Text.precedesOn_append_append]
  rw [hrest f, hrest g]

/-! ### Common folders -/

private theorem foldl_commonStart_append (shared first : List String) (rest : List (List String)) :
    (rest.map (shared ++ ·)).foldl commonStart (shared ++ first) =
      shared ++ rest.foldl commonStart first := by
  induction rest generalizing first with
  | nil => rfl
  | cons second rest ih =>
    rw [List.map_cons, List.foldl_cons, commonStart_append_append, ih, List.foldl_cons]

theorem isRoot_slash : IsRoot "/" := .inl rfl

/-- The folder with the same names that begins with one slash. -/
def single (f : Folder) : Folder :=
  { f with root := "/", isRoot := isRoot_slash }

/-- **The deepest folder** above some paths is told by the steps that they begin with. -/
theorem common_path (f : Folder) {first : List String} {rest : List (List String)}
    (h : ∀ steps ∈ first :: rest, ∀ s ∈ steps, IsStep s) :
    common ((first :: rest).map f.path) = f.single.path (rest.foldl commonStart first) := by
  have hnames : ∀ steps ∈ first :: rest,
      (Path.names (f.path steps)).filter (· ≠ ".") = f.names ++ steps := by
    intro steps hsteps
    rw [names_path (h steps hsteps)]
    exact List.filter_eq_self.mpr fun s hs => by
      simpa using (f.isStep_append (h steps hsteps) s hs).ne_dot
  have hmap : ((first :: rest).map f.path).map (fun p => (Path.names p).filter (· ≠ ".")) =
      (first :: rest).map (f.names ++ ·) := by
    rw [List.map_map]
    exact List.map_congr_left hnames
  rw [common, hmap, List.map_cons]
  dsimp only
  rw [foldl_commonStart_append]
  rfl

end Folder

end Path

end ApiOutline
