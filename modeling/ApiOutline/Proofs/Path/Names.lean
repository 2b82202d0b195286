import ApiOutline.Path
import Mathlib.Data.List.Basic

/-!
# Absolute paths as lists of names

An absolute path in its shortest spelling is a root, one slash or two, before names divided by
slashes. `Path.spell root names` is that spelling, and the operations on paths are described here
by what they do to the names: joining adds one at the end, the folder of a path loses the last one,
and normalizing gives back what is spelled from names (`normalize_spell`).

Two kinds of segment are told apart. A *step* is any segment that a tidy path may hold, `..`
included; a *name* is a step that does not lead up. A path that is spelled from steps is normal
exactly when all of them are names (`normalize_spell_eq_self_iff`), which is how a spelling with a
step up is found out.
-/

namespace ApiOutline

namespace Path

/-! ### Segments -/

private theorem not_mem_of_mem_splitOn {c : Char} {cs part : List Char}
    (h : part ∈ cs.splitOn c) : c ∉ part := by
  induction cs generalizing part with
  | nil =>
    rw [List.splitOn_nil, List.mem_singleton] at h
    subst h
    exact List.not_mem_nil
  | cons x xs ih =>
    rw [List.splitOn_cons_eq_if_modifyHead] at h
    split_ifs at h with hx
    · rcases List.mem_cons.mp h with rfl | h
      · exact List.not_mem_nil
      · exact ih h
    · obtain ⟨first, rest, hparts⟩ := List.exists_cons_of_ne_nil (List.splitOn_ne_nil c xs)
      rw [hparts, List.modifyHead_cons] at h
      rw [hparts] at ih
      rcases List.mem_cons.mp h with rfl | h
      · refine fun hc => (List.mem_cons.mp hc).elim (fun heq => hx (by simp [heq])) ?_
        exact ih List.mem_cons_self
      · exact ih (List.mem_cons_of_mem _ h)

theorem not_mem_of_mem_segments {p s : String} (h : s ∈ segments p) : '/' ∉ s.toList := by
  obtain ⟨cs, hcs, rfl⟩ := List.mem_map.mp h
  rw [String.toList_ofList]
  exact not_mem_of_mem_splitOn hcs

/-- Names without slashes are the segments of what is written from them. -/
theorem segments_intercalate {names : List String} (hne : names ≠ [])
    (h : ∀ n ∈ names, '/' ∉ n.toList) : segments ("/".intercalate names) = names := by
  have hlist : ∀ cs ∈ names.map String.toList, '/' ∉ cs := by
    intro cs hcs
    obtain ⟨n, hn, rfl⟩ := List.mem_map.mp hcs
    exact h n hn
  rw [segments, Text.splitOn, String.toList_intercalate]
  change ((['/'].intercalate (names.map String.toList)).splitOn '/').map String.ofList = names
  rw [List.splitOn_intercalate '/' hlist (by simpa using hne), List.map_map]
  have : String.ofList ∘ String.toList = id := funext fun s => String.ofList_toList
  rw [this, List.map_id]

/-- A text is written from its segments. -/
theorem intercalate_segments (p : String) : "/".intercalate (segments p) = p := by
  rw [← String.toList_inj, String.toList_intercalate, segments, Text.splitOn, List.map_map]
  have hid : String.toList ∘ String.ofList = id := funext fun cs => String.toList_ofList
  rw [hid, List.map_id]
  exact List.intercalate_splitOn '/'

/-- A slash at the beginning makes an empty segment. -/
theorem segments_slash (p : String) : segments ("/" ++ p) = "" :: segments p := by
  rw [segments, Text.splitOn, String.toList_append]
  change (([] ++ '/' :: p.toList).splitOn '/').map String.ofList = _
  rw [List.splitOn_append_cons_self]
  rfl

/-- The segments of two paths with a slash between them are those of the one and of the other. -/
theorem segments_append_slash (p q : String) :
    segments (p ++ "/" ++ q) = segments p ++ segments q := by
  simp only [segments, Text.splitOn, String.toList_append]
  change ((p.toList ++ ['/'] ++ q.toList).splitOn '/').map String.ofList = _
  rw [List.append_assoc, List.singleton_append, List.splitOn_append_cons_self, List.map_append]

/-- A segment that a tidy path may hold. -/
structure IsStep (s : String) : Prop where
  ne_empty : s ≠ ""
  ne_dot : s ≠ "."
  no_slash : '/' ∉ s.toList

/-- A segment that a normal path may hold: a step that does not lead up. -/
structure IsName (s : String) : Prop extends IsStep s where
  ne_up : s ≠ ".."

instance IsName.decidable (s : String) : Decidable (IsName s) :=
  decidable_of_iff (s ≠ "" ∧ s ≠ "." ∧ '/' ∉ s.toList ∧ s ≠ "..")
    ⟨fun ⟨hempty, hdot, hslash, hup⟩ => ⟨⟨hempty, hdot, hslash⟩, hup⟩,
      fun h => ⟨h.ne_empty, h.ne_dot, h.no_slash, h.ne_up⟩⟩

theorem mem_names {p s : String} : s ∈ names p ↔ s ∈ segments p ∧ s ≠ "" := by
  simp [names]

theorem names_append_slash (p q : String) : names (p ++ "/" ++ q) = names p ++ names q := by
  rw [names, segments_append_slash, List.filter_append]
  rfl

private theorem names_slash (p : String) : names ("/" ++ p) = names p := by
  rw [names, segments_slash]
  rfl

theorem names_intercalate {steps : List String} (h : ∀ s ∈ steps, IsStep s) :
    names ("/".intercalate steps) = steps := by
  cases steps with
  | nil => rfl
  | cons s rest =>
    rw [names, segments_intercalate (List.cons_ne_nil _ _) fun t ht => (h t ht).no_slash]
    exact List.filter_eq_self.mpr fun t ht => by simpa using (h t ht).ne_empty

/-! ### Roots -/

/-- The two ways in which an absolute path can begin. -/
def IsRoot (root : String) : Prop :=
  root = "/" ∨ root = "//"

theorem isAbsolute_iff {p : String} : isAbsolute p = true ↔ ∃ cs, p.toList = '/' :: cs := by
  change ['/'].isPrefixOf p.toList = true ↔ _
  cases p.toList with
  | nil => simp
  | cons c cs =>
    simp only [List.isPrefixOf_cons_cons, List.isPrefixOf_nil_left, Bool.and_true, beq_iff_eq,
      List.cons.injEq, exists_and_left, exists_eq', and_true]
    exact eq_comm

theorem isAbsolute_eq_false_iff {p : String} :
    isAbsolute p = false ↔ ∀ cs, p.toList ≠ '/' :: cs := by
  rw [← Bool.not_eq_true, isAbsolute_iff]
  push Not
  rfl

theorem isRoot_rootOf {p : String} (h : isAbsolute p = true) : IsRoot (rootOf p) := by
  obtain ⟨cs, hcs⟩ := isAbsolute_iff.mp h
  rw [rootOf, hcs]
  split
  · exact .inl rfl
  · exact .inr rfl
  · exact .inl rfl
  · next hne => exact absurd rfl (hne cs)

/-- Only an absolute path begins with a root. -/
theorem isAbsolute_of_isRoot {p : String} (h : IsRoot (rootOf p)) : isAbsolute p = true := by
  rw [isAbsolute_iff]
  rw [rootOf] at h
  split at h
  · next hcs => exact ⟨_, hcs⟩
  · next hcs => exact ⟨_, hcs⟩
  · next hcs => exact ⟨_, hcs⟩
  · rcases h with h | h <;> exact absurd h (by decide)

theorem isAbsolute_append {p : String} (h : isAbsolute p = true) (q : String) :
    isAbsolute (p ++ q) = true := by
  obtain ⟨cs, hcs⟩ := isAbsolute_iff.mp h
  exact isAbsolute_iff.mpr ⟨cs ++ q.toList, by rw [String.toList_append, hcs, List.cons_append]⟩

theorem IsRoot.isAbsolute {root : String} (h : IsRoot root) : isAbsolute root = true := by
  rcases h with rfl | rfl <;> rfl

theorem isAbsolute_join {dir : String} (h : isAbsolute dir = true) (p : String) :
    isAbsolute (join dir p) = true := by
  rw [join]
  split_ifs with hp hdir
  · exact hp
  · exact isAbsolute_append h p
  · exact isAbsolute_append (isAbsolute_append h "/") p

theorem ne_empty_of_isAbsolute {p : String} (h : isAbsolute p = true) : p ≠ "" := by
  rintro rfl
  cases h

/-- A step is seen from wherever one stands. -/
theorem IsStep.isAbsolute_eq_false {s : String} (h : IsStep s) : isAbsolute s = false :=
  isAbsolute_eq_false_iff.mpr fun _ hcs => h.no_slash (hcs ▸ List.mem_cons_self)

/-! ### Spelling -/

/-- The path that begins with `root` and goes on with the given steps. -/
def spell (root : String) (steps : List String) : String :=
  root ++ "/".intercalate steps

variable {root : String} {steps : List String}

theorem isAbsolute_spell (hr : IsRoot root) (steps : List String) :
    isAbsolute (spell root steps) = true :=
  isAbsolute_append hr.isAbsolute _

theorem names_spell (hr : IsRoot root) (h : ∀ s ∈ steps, IsStep s) :
    names (spell root steps) = steps := by
  rcases hr with rfl | rfl
  · rw [spell, names_slash, names_intercalate h]
  · change names ("/" ++ "/" ++ "/".intercalate steps) = steps
    rw [String.append_assoc, names_slash, names_slash, names_intercalate h]

/-- A path that does not begin with a slash takes nothing from the root before it. -/
private theorem rootOf_append (hr : IsRoot root) {p : String} (h : isAbsolute p = false) :
    rootOf (root ++ p) = root := by
  have hp := isAbsolute_eq_false_iff.mp h
  rw [rootOf, String.toList_append]
  rcases hr with rfl | rfl
  · split
    · rfl
    · next heq => exact absurd (List.cons.inj heq).2 (hp _)
    · rfl
    · next hne => exact absurd rfl (hne p.toList)
  · split
    · next heq => exact absurd (List.cons.inj (List.cons.inj heq).2).2 (hp _)
    · rfl
    · next hne heq => exact absurd (List.cons.inj heq).2.symm (hne p.toList)
    · next hne => exact absurd rfl (hne ('/' :: p.toList))

theorem isAbsolute_intercalate (h : ∀ s ∈ steps, IsStep s) :
    isAbsolute ("/".intercalate steps) = false := by
  cases steps with
  | nil => rfl
  | cons s rest =>
    refine isAbsolute_eq_false_iff.mpr fun cs hcs => ?_
    obtain ⟨c, ds, hs⟩ := List.exists_cons_of_ne_nil
      (fun hnil => (h s List.mem_cons_self).ne_empty (String.toList_inj.mp hnil))
    rw [String.toList_intercalate, List.map_cons, hs, List.intercalate_cons_cons_left] at hcs
    have hc : c = '/' := (List.cons.inj hcs).1
    exact (h s List.mem_cons_self).no_slash (by rw [hs, hc]; exact List.mem_cons_self)

theorem rootOf_spell (hr : IsRoot root) (h : ∀ s ∈ steps, IsStep s) :
    rootOf (spell root steps) = root :=
  rootOf_append hr (isAbsolute_intercalate h)

/-- Spellings from steps are equal only if the steps are. -/
theorem spell_injective {root' : String} {steps' : List String} (hr : IsRoot root)
    (hr' : IsRoot root') (h : ∀ s ∈ steps, IsStep s) (h' : ∀ s ∈ steps', IsStep s)
    (heq : spell root steps = spell root' steps') : root = root' ∧ steps = steps' :=
  ⟨by rw [← rootOf_spell hr h, heq, rootOf_spell hr' h'],
    by rw [← names_spell hr h, heq, names_spell hr' h']⟩

theorem segments_spell (hne : steps ≠ []) (h : ∀ s ∈ steps, IsStep s) :
    segments (spell "/" steps) = "" :: steps := by
  rw [spell, segments_slash, segments_intercalate hne fun s hs => (h s hs).no_slash]

/-- Below one slash every step comes with a slash of its own. -/
theorem toList_spell (hne : steps ≠ []) :
    (spell "/" steps).toList = steps.flatMap fun s => '/' :: s.toList := by
  rw [spell, String.toList_append, String.toList_intercalate]
  change '/' :: ['/'].intercalate (steps.map String.toList) = _
  induction steps with
  | nil => exact absurd rfl hne
  | cons s rest ih =>
    cases rest with
    | nil => simp
    | cons t rest =>
      have hrest := ih (List.cons_ne_nil t rest)
      rw [List.flatMap_cons, ← hrest]
      simp

/-! ### Normal paths -/

private theorem climb_of_isName {s : String} (h : IsName s) (rooted : Bool) (stack : List String) :
    climb rooted stack s = s :: stack := by
  rw [climb.eq_def, if_neg (by simp [h.ne_empty, h.ne_dot]), if_neg h.ne_up]

/-- From the root, climbing keeps a stack of names. -/
private theorem isName_climb {stack : List String} {s : String} (hstack : ∀ n ∈ stack, IsName n)
    (hs : '/' ∉ s.toList) : ∀ n ∈ climb true stack s, IsName n := by
  rw [climb.eq_def]
  by_cases hempty : (decide (s = "") || decide (s = ".")) = true
  · rw [if_pos hempty]
    exact hstack
  · rw [if_neg hempty]
    by_cases hup : s = ".."
    · -- a step up only takes a name away, as no step up is left on the stack
      rw [if_pos hup]
      cases stack with
      | nil => exact hstack
      | cons top rest =>
        dsimp only
        rw [if_neg (hstack top List.mem_cons_self).ne_up]
        exact fun n hn => hstack n (List.mem_cons_of_mem _ hn)
    · rw [if_neg hup]
      intro n hn
      rcases List.mem_cons.mp hn with rfl | hn
      · simp only [Bool.or_eq_true, decide_eq_true_eq, not_or] at hempty
        exact ⟨⟨hempty.1, hempty.2, hs⟩, hup⟩
      · exact hstack n hn

theorem isName_collapse {parts : List String} (h : ∀ s ∈ parts, '/' ∉ s.toList) :
    ∀ n ∈ collapse true parts, IsName n := by
  -- the invariant of the fold: the stack holds names
  have run : ∀ stack : List String, (∀ n ∈ stack, IsName n) →
      ∀ n ∈ parts.foldl (climb true) stack, IsName n := by
    induction parts with
    | nil => exact fun stack hstack => hstack
    | cons s rest ih =>
      intro stack hstack
      exact ih (fun t ht => h t (List.mem_cons_of_mem _ ht)) _
        (isName_climb hstack (h s List.mem_cons_self))
  intro n hn
  exact run [] (fun _ hm => absurd hm List.not_mem_nil) n (List.mem_reverse.mp hn)

/-- Names are kept as they are. -/
theorem collapse_of_isName {parts : List String} (h : ∀ n ∈ parts, IsName n) (rooted : Bool) :
    collapse rooted parts = parts := by
  have run : ∀ stack : List String, parts.foldl (climb rooted) stack = parts.reverse ++ stack := by
    induction parts with
    | nil => exact fun stack => rfl
    | cons n rest ih =>
      intro stack
      rw [List.foldl_cons, climb_of_isName (h n List.mem_cons_self),
        ih fun m hm => h m (List.mem_cons_of_mem _ hm)]
      simp
  rw [collapse, run, List.append_nil, List.reverse_reverse]

/-- Names that are collapsed first and then with more segments are collapsed with these at once. -/
private theorem collapse_append {parts : List String} (h : ∀ s ∈ parts, '/' ∉ s.toList)
    (more : List String) :
    collapse true (collapse true parts ++ more) = collapse true (parts ++ more) := by
  have htwice := collapse_of_isName (isName_collapse h) true
  simp only [collapse, List.reverse_inj] at htwice
  simp only [collapse, List.foldl_append, htwice]

/-- Empty segments do not count. -/
private theorem collapse_filter (rooted : Bool) (parts : List String) :
    collapse rooted (parts.filter (· ≠ "")) = collapse rooted parts := by
  have run : ∀ stack : List String, (parts.filter (· ≠ "")).foldl (climb rooted) stack
      = parts.foldl (climb rooted) stack := by
    induction parts with
    | nil => exact fun stack => rfl
    | cons s rest ih =>
      intro stack
      by_cases hs : s = ""
      · subst hs
        exact ih stack
      · rw [List.filter_cons_of_pos (by simpa using hs), List.foldl_cons, List.foldl_cons, ih]
  rw [collapse, collapse, run]

theorem no_slash_of_mem_names {p s : String} (h : s ∈ names p) : '/' ∉ s.toList :=
  not_mem_of_mem_segments (mem_names.mp h).1

/-- **Normalizing an absolute path** spells the names that are left once steps up are taken. -/
theorem normalize_of_isAbsolute {p : String} (h : isAbsolute p = true) :
    normalize p = spell (rootOf p) (collapse true (names p)) := by
  have hroot : rootOf p ≠ "" := by
    rcases isRoot_rootOf h with hr | hr <;> rw [hr] <;> decide
  have hne : spell (rootOf p) (collapse true (names p)) ≠ "" :=
    ne_empty_of_isAbsolute (isAbsolute_spell (isRoot_rootOf h) _)
  rw [names, collapse_filter, spell] at hne ⊢
  rw [normalize, show decide (rootOf p ≠ "") = true by simpa using hroot, if_neg hne]

theorem isAbsolute_normalize {p : String} (h : isAbsolute p = true) :
    isAbsolute (normalize p) = true := by
  rw [normalize_of_isAbsolute h]
  exact isAbsolute_spell (isRoot_rootOf h) _

theorem isAbsolute_absolute {cwd : String} (h : isAbsolute cwd = true) (p : String) :
    isAbsolute (absolute cwd p) = true :=
  isAbsolute_normalize (isAbsolute_join h p)

theorem normalize_spell (hr : IsRoot root) (h : ∀ n ∈ steps, IsName n) :
    normalize (spell root steps) = spell root steps := by
  have hsteps : ∀ s ∈ steps, IsStep s := fun s hs => (h s hs).toIsStep
  rw [normalize_of_isAbsolute (isAbsolute_spell hr steps), rootOf_spell hr hsteps,
    names_spell hr hsteps, collapse_of_isName h]

/-- A normal absolute path is spelled from a root and names. -/
theorem exists_spell_of_normal {p : String} (h : isAbsolute p = true) (hn : normalize p = p) :
    ∃ root steps, IsRoot root ∧ (∀ n ∈ steps, IsName n) ∧ p = spell root steps :=
  ⟨rootOf p, collapse true (names p), isRoot_rootOf h,
    isName_collapse fun _ hs => no_slash_of_mem_names hs, by rw [← normalize_of_isAbsolute h, hn]⟩

/-- **Normalizing twice** is normalizing once. -/
theorem normalize_normalize {p : String} (h : isAbsolute p = true) :
    normalize (normalize p) = normalize p := by
  rw [normalize_of_isAbsolute h]
  exact normalize_spell (isRoot_rootOf h) (isName_collapse fun _ hs => no_slash_of_mem_names hs)

/-- **A tidy path is normal** exactly when none of its steps leads up. -/
theorem normalize_spell_eq_self_iff (hr : IsRoot root) (h : ∀ s ∈ steps, IsStep s) :
    normalize (spell root steps) = spell root steps ↔ ".." ∉ steps := by
  constructor
  · intro hn hup
    have hnames : ∀ n ∈ collapse true (names (spell root steps)), IsName n :=
      isName_collapse fun _ hs => no_slash_of_mem_names hs
    rw [normalize_of_isAbsolute (isAbsolute_spell hr steps), rootOf_spell hr h] at hn
    obtain ⟨-, hsteps⟩ := spell_injective hr hr (fun n hn => (hnames n hn).toIsStep) h hn
    rw [hsteps] at hnames
    exact (hnames ".." hup).ne_up rfl
  · intro hup
    refine normalize_spell hr fun s hs => ⟨h s hs, ?_⟩
    rintro rfl
    exact hup hs

/-! ### Joining -/

theorem exists_eq_append_of_endsWith {p ending : String} (h : Text.endsWith p ending = true) :
    ∃ q, p = q ++ ending := by
  obtain ⟨cs, hcs⟩ := List.isSuffixOf_iff_suffix.mp h
  refine ⟨String.ofList cs, String.toList_inj.mp ?_⟩
  rw [String.toList_append, String.toList_ofList, hcs]

/-- A relative path that is joined adds its names. -/
private theorem names_join {p : String} (h : isAbsolute p = false) (dir : String) :
    names (join dir p) = names dir ++ names p := by
  rw [join, if_neg (by simp [h])]
  by_cases hdir : dir = ""
  · subst hdir
    rfl
  · by_cases hend : Text.endsWith dir "/" = true
    · rw [if_pos (by simp [hend])]
      obtain ⟨q, rfl⟩ := exists_eq_append_of_endsWith hend
      have hq : names (q ++ "/") = names q := by
        have := names_append_slash q ""
        rwa [String.append_empty, show names "" = [] from rfl, List.append_nil] at this
      rw [names_append_slash, hq]
    · rw [if_neg (by simp [hdir, hend]), names_append_slash]

/-- A relative path that is joined leaves the root as it is. -/
private theorem rootOf_join {dir p : String} (hdir : isAbsolute dir = true)
    (h : isAbsolute p = false) :
    rootOf (join dir p) = rootOf dir := by
  obtain ⟨cs, hcs⟩ := isAbsolute_iff.mp hdir
  rw [join, if_neg (by simp [h])]
  -- three characters decide about the root, and only `/` and `//` have fewer slashes to show
  rcases cs with _ | ⟨c, _ | ⟨e, es⟩⟩
  · obtain rfl : dir = "/" := String.toList_inj.mp hcs
    exact rootOf_append (.inl rfl) h
  · by_cases hc : c = '/'
    · subst hc
      obtain rfl : dir = "//" := String.toList_inj.mp hcs
      exact rootOf_append (.inr rfl) h
    · split_ifs <;> simp [rootOf, hcs, hc]
  · by_cases hc : c = '/'
    · by_cases he : e = '/'
      · split_ifs <;> simp [rootOf, hcs, hc, he]
      · split_ifs <;> simp [rootOf, hcs, hc, he]
    · split_ifs <;> simp [rootOf, hcs, hc]

theorem normalize_join {dir p : String} (hdir : isAbsolute dir = true) (h : isAbsolute p = false) :
    normalize (join dir p) = spell (rootOf dir) (collapse true (names dir ++ names p)) := by
  rw [normalize_of_isAbsolute (isAbsolute_join hdir p), rootOf_join hdir h, names_join h]

/-- An absolute path that is joined stays what it is. -/
theorem join_of_isAbsolute {p : String} (h : isAbsolute p = true) (dir : String) :
    join dir p = p := by
  rw [join, if_pos h]

/-- It does not matter whether the folder is normalized before something is joined to it. -/
theorem normalize_join_normalize {dir : String} (hdir : isAbsolute dir = true) (p : String) :
    normalize (join (normalize dir) p) = normalize (join dir p) := by
  cases hp : isAbsolute p with
  | true => rw [join_of_isAbsolute hp, join_of_isAbsolute hp]
  | false =>
    have hslash : ∀ s ∈ names dir, '/' ∉ s.toList := fun s hs => no_slash_of_mem_names hs
    have hsteps : ∀ s ∈ collapse true (names dir), IsStep s :=
      fun s hs => (isName_collapse hslash s hs).toIsStep
    have hroot := isRoot_rootOf hdir
    rw [normalize_join (isAbsolute_normalize hdir) hp, normalize_join hdir hp,
      normalize_of_isAbsolute hdir, rootOf_spell hroot hsteps, names_spell hroot hsteps,
      collapse_append hslash]

/-- A path that was made absolute is the same from everywhere. -/
theorem absolute_absolute {dir : String} (hdir : isAbsolute dir = true) (base p : String) :
    absolute base (absolute dir p) = absolute dir p := by
  rw [absolute, join_of_isAbsolute (isAbsolute_absolute hdir p), absolute,
    normalize_normalize (isAbsolute_join hdir p)]

/-- A path stands below the root of the folder that it is joined to, unless it has its own. -/
theorem rootOf_join_eq {root dir p : String} (hroot : IsRoot root) (hdir : rootOf dir = root)
    (hp : isAbsolute p = true → rootOf p = root) : rootOf (join dir p) = root := by
  cases habs : isAbsolute p with
  | true => rw [join_of_isAbsolute habs, hp habs]
  | false => rw [rootOf_join (isAbsolute_of_isRoot (hdir ▸ hroot)) habs, hdir]

private theorem tidy_of_isAbsolute {p : String} (h : isAbsolute p = true) :
    tidy p = spell (rootOf p) ((names p).filter (· ≠ ".")) := by
  rw [tidy]
  exact if_neg (ne_empty_of_isAbsolute (isAbsolute_spell (isRoot_rootOf h) _))

private theorem filter_ne_dot (h : ∀ s ∈ steps, IsStep s) : steps.filter (· ≠ ".") = steps :=
  List.filter_eq_self.mpr fun s hs => by simpa using (h s hs).ne_dot

theorem tidy_spell (hr : IsRoot root) (h : ∀ s ∈ steps, IsStep s) :
    tidy (spell root steps) = spell root steps := by
  rw [tidy_of_isAbsolute (isAbsolute_spell hr steps), rootOf_spell hr h, names_spell hr h,
    filter_ne_dot h]

private theorem names_of_isStep {s : String} (h : IsStep s) : names s = [s] := by
  have hs : names ("/".intercalate [s]) = [s] := names_intercalate (by simpa using h)
  rwa [String.intercalate_singleton] at hs

theorem isStep_append_singleton {s : String} (h : ∀ t ∈ steps, IsStep t) (hs : IsStep s) :
    ∀ t ∈ steps ++ [s], IsStep t := by
  intro t ht
  rcases List.mem_append.mp ht with ht | ht
  · exact h t ht
  · exact List.mem_singleton.mp ht ▸ hs

/-- Joining a step and tidying up adds the step at the end. -/
theorem tidy_join_spell (hr : IsRoot root) (h : ∀ s ∈ steps, IsStep s) {s : String}
    (hs : IsStep s) : tidy (join (spell root steps) s) = spell root (steps ++ [s]) := by
  have habs := isAbsolute_spell hr steps
  rw [tidy_of_isAbsolute (isAbsolute_join habs s), rootOf_join habs hs.isAbsolute_eq_false,
    names_join hs.isAbsolute_eq_false, rootOf_spell hr h, names_spell hr h, names_of_isStep hs,
    filter_ne_dot (isStep_append_singleton h hs)]

theorem spell_append_singleton (root : String) (hne : steps ≠ []) (s : String) :
    spell root (steps ++ [s]) = spell root steps ++ "/" ++ s := by
  rw [spell, spell, String.intercalate_append_of_ne_nil hne (List.cons_ne_nil _ _),
    String.intercalate_singleton]
  simp only [String.append_assoc]

/-- What is spelled from steps does not end with a slash. -/
private theorem exists_last (h : ∀ s ∈ steps, IsStep s) (hne : steps ≠ []) (root : String) :
    ∃ cs c, (spell root steps).toList = cs ++ [c] ∧ c ≠ '/' := by
  rcases List.eq_nil_or_concat' steps with rfl | ⟨init, s, rfl⟩
  · exact absurd rfl hne
  · have hs : IsStep s := h s (by simp)
    obtain ⟨front, hfront⟩ : ∃ front, (spell root (init ++ [s])).toList = front ++ s.toList := by
      by_cases hinit : init = []
      · exact ⟨root.toList, by simp [hinit, spell]⟩
      · refine ⟨(spell root init ++ "/").toList, ?_⟩
        rw [spell_append_singleton root hinit, String.toList_append]
    rcases List.eq_nil_or_concat' s.toList with hnil | ⟨cs, c, hcs⟩
    · exact absurd (String.toList_inj.mp hnil) hs.ne_empty
    · refine ⟨front ++ cs, c, by rw [hfront, hcs, List.append_assoc], ?_⟩
      rintro rfl
      exact hs.no_slash (by simp [hcs])

theorem endsWith_slash_spell (h : ∀ s ∈ steps, IsStep s) (hne : steps ≠ []) (root : String) :
    Text.endsWith (spell root steps) "/" = false := by
  rw [← Bool.not_eq_true]
  intro hslash
  obtain ⟨q, hq⟩ := exists_eq_append_of_endsWith hslash
  obtain ⟨cs, c, hcs, hc⟩ := exists_last h hne root
  rw [hq, String.toList_append] at hcs
  exact hc (List.cons.inj (List.append_inj_right' hcs rfl)).1.symm

/-- Joining a step adds it at the end. -/
theorem join_spell (hr : IsRoot root) (h : ∀ s ∈ steps, IsStep s) {s : String} (hs : IsStep s) :
    join (spell root steps) s = spell root (steps ++ [s]) := by
  rw [join, if_neg (by simp [hs.isAbsolute_eq_false])]
  by_cases hne : steps = []
  · subst hne
    rw [if_pos (by rcases hr with rfl | rfl <;> rfl)]
    rcases hr with rfl | rfl <;> simp [spell]
  · have hempty := ne_empty_of_isAbsolute (isAbsolute_spell hr steps)
    rw [if_neg (by simp [hempty, endsWith_slash_spell h hne root]), spell_append_singleton root hne]

/-! ### Slashes at the end -/

theorem eq_dropRight_append (c : Char) (cs : List Char) :
    ∃ n, cs = Text.dropRight (· == c) cs ++ List.replicate n c := by
  induction cs with
  | nil => exact ⟨0, rfl⟩
  | cons a as ih =>
    obtain ⟨n, hn⟩ := ih
    rw [Text.dropRight]
    split
    · next hnil =>
      rw [hnil, List.nil_append] at hn
      split_ifs with ha
      · exact ⟨n + 1, by rw [beq_iff_eq.mp ha, hn]; simp [List.replicate_succ]⟩
      · exact ⟨n, by rw [hn]; simp⟩
    · exact ⟨n, by rw [List.cons_append, ← hn]⟩

private theorem names_replicate_slash (n : Nat) :
    names (String.ofList (List.replicate n '/')) = [] := by
  induction n with
  | zero => rfl
  | succ n ih =>
    have hslash : String.ofList (List.replicate (n + 1) '/') =
        "/" ++ String.ofList (List.replicate n '/') := by
      rw [← String.toList_inj]
      simp [List.replicate_succ]
    rw [hslash, names_slash, ih]

/-- Slashes at the end do not count. -/
theorem names_trimEnd (p : String) : names (Text.trimEnd p '/') = names p := by
  obtain ⟨n, hn⟩ := eq_dropRight_append '/' p.toList
  cases n with
  | zero =>
    rw [List.replicate_zero, List.append_nil] at hn
    rw [Text.trimEnd, ← hn, String.ofList_toList]
  | succ n =>
    have hp : p = Text.trimEnd p '/' ++ "/" ++ String.ofList (List.replicate n '/') := by
      rw [← String.toList_inj, Text.trimEnd]
      conv_lhs => rw [hn]
      simp [List.replicate_succ]
    conv_rhs => rw [hp]
    rw [names_append_slash, names_replicate_slash, List.append_nil]

/-- Slashes at the end are all that makes a path absolute, or it stays absolute without them. -/
theorem isAbsolute_of_trimEnd {p : String} (h : isAbsolute p = true) :
    Text.trimEnd p '/' = "" ∨ isAbsolute (Text.trimEnd p '/') = true := by
  obtain ⟨cs, hcs⟩ := isAbsolute_iff.mp h
  rw [Text.trimEnd, hcs, Text.dropRight]
  split
  · exact .inl rfl
  · exact .inr (isAbsolute_iff.mpr ⟨_, String.toList_ofList⟩)

/-! ### Folders -/

theorem cutLast_eq_none {sep : Char} {cs : List Char} (h : sep ∉ cs) :
    Text.cutLast sep cs = none := by
  induction cs with
  | nil => rfl
  | cons c cs ih =>
    have hc : (c == sep) = false := by
      simpa using fun heq : c = sep => h (heq ▸ List.mem_cons_self)
    rw [Text.cutLast, ih fun hmem => h (List.mem_cons_of_mem _ hmem)]
    simp [hc]

/-- The last occurrence is the one with none after it. -/
theorem cutLast_append {sep : Char} {after : List Char} (h : sep ∉ after) (before : List Char) :
    Text.cutLast sep (before ++ sep :: after) = some (before, after) := by
  induction before with
  | nil =>
    rw [List.nil_append, Text.cutLast, cutLast_eq_none h]
    simp
  | cons c cs ih => rw [List.cons_append, Text.cutLast, ih]

/-- The folder of a path loses the last name. -/
theorem dirname_spell (hr : IsRoot root) (h : ∀ s ∈ steps, IsStep s) {s : String} (hs : IsStep s) :
    dirname (spell root (steps ++ [s])) = spell root steps := by
  by_cases hne : steps = []
  · -- only the slashes of the root come before the last name, and they stay
    subst hne
    rcases hr with rfl | rfl
    · have hcut := cutLast_append hs.no_slash []
      rw [dirname, show (spell "/" ([] ++ [s])).toList = [] ++ '/' :: s.toList by simp [spell],
        hcut]
      rfl
    · have hcut := cutLast_append hs.no_slash ['/']
      rw [dirname, show (spell "//" ([] ++ [s])).toList = ['/'] ++ '/' :: s.toList by simp [spell],
        hcut]
      rfl
  · have hcut := cutLast_append hs.no_slash (spell root steps).toList
    have hlist : (spell root (steps ++ [s])).toList =
        (spell root steps).toList ++ '/' :: s.toList := by
      rw [spell_append_singleton root hne]
      simp
    obtain ⟨cs, c, hcs, hc⟩ := exists_last h hne root
    have hall : (spell root steps).toList.all (· == '/') = false := by
      rw [hcs, List.all_append]
      simp [hc]
    have hkeep : Text.dropRight (· == '/') (spell root steps).toList =
        (spell root steps).toList := by
      rw [hcs]
      exact Text.dropRight_append_of_not _ cs (by simpa using hc)
    rw [dirname, hlist, hcut]
    dsimp only
    rw [hall, if_neg (by decide), hkeep, String.ofList_toList]

theorem cutLast_eq_some {sep : Char} {cs before after : List Char}
    (h : Text.cutLast sep cs = some (before, after)) : cs = before ++ sep :: after := by
  induction cs generalizing before with
  | nil => cases h
  | cons c cs ih =>
    rw [Text.cutLast] at h
    split at h
    · next before' after' hcut =>
      obtain ⟨rfl, rfl⟩ := Prod.mk.inj (Option.some.inj h)
      rw [ih hcut, List.cons_append]
    · split_ifs at h with hc
      obtain ⟨rfl, rfl⟩ := Prod.mk.inj (Option.some.inj h)
      rw [beq_iff_eq.mp hc, List.nil_append]

private theorem exists_cutLast_of_isAbsolute {p : String} (h : isAbsolute p = true) :
    ∃ before after, Text.cutLast '/' p.toList = some (before, after) := by
  obtain ⟨cs, hcs⟩ := isAbsolute_iff.mp h
  rw [hcs, Text.cutLast]
  split
  · exact ⟨_, _, rfl⟩
  · exact ⟨[], cs, by simp⟩

/-- The folder of an absolute path is absolute. -/
theorem isAbsolute_dirname {p : String} (h : isAbsolute p = true) :
    isAbsolute (dirname p) = true := by
  obtain ⟨cs, hcs⟩ := isAbsolute_iff.mp h
  obtain ⟨before, after, hcut⟩ := exists_cutLast_of_isAbsolute h
  have hparts := cutLast_eq_some hcut
  rw [dirname, hcut]
  dsimp only
  split_ifs with hall
  · -- only slashes come before the last one
    rw [isAbsolute_iff, String.toList_ofList]
    cases before with
    | nil => exact ⟨[], rfl⟩
    | cons c rest =>
      have hc : c = '/' := by
        rw [hcs, List.cons_append] at hparts
        exact (List.cons.inj hparts).1.symm
      exact ⟨rest ++ ['/'], by rw [hc, List.cons_append]⟩
  · rw [isAbsolute_iff, String.toList_ofList]
    obtain ⟨n, hn⟩ := eq_dropRight_append '/' before
    cases hkept : Text.dropRight (· == '/') before with
    | nil =>
      rw [hkept, List.nil_append] at hn
      exact absurd (by rw [hn]; simp) hall
    | cons c kept =>
      -- what is kept begins as the path does
      rw [hkept] at hn
      rw [hcs, hn, List.cons_append, List.cons_append] at hparts
      exact ⟨kept, by rw [(List.cons.inj hparts).1]⟩

/-- A path that is not its own folder is longer than its folder. -/
theorem length_dirname_lt {p : String} (h : dirname p ≠ p) : (dirname p).length < p.length := by
  cases hcut : Text.cutLast '/' p.toList with
  | none =>
    have hempty : dirname p = "" := by rw [dirname, hcut]
    rw [hempty] at h ⊢
    exact Nat.pos_of_ne_zero fun hzero => h (String.length_eq_zero_iff.mp hzero).symm
  | some parts =>
    obtain ⟨before, after⟩ := parts
    have hparts := cutLast_eq_some hcut
    have hlength : p.length = before.length + after.length + 1 := by
      rw [← String.length_toList, hparts, List.length_append, List.length_cons]
      omega
    by_cases hall : before.all (· == '/') = true
    · have hdir : dirname p = String.ofList (before ++ ['/']) := by
        rw [dirname, hcut]
        exact if_pos hall
      -- something comes after the last slash, or the path would be its own folder
      have hafter : after ≠ [] := by
        intro hnil
        rw [hdir, ne_eq, ← String.toList_inj, String.toList_ofList, hparts, hnil] at h
        exact h rfl
      have hpos := List.length_pos_iff.mpr hafter
      rw [hdir, String.length_ofList, List.length_append, List.length_singleton]
      omega
    · have hdir : dirname p = String.ofList (Text.dropRight (· == '/') before) := by
        rw [dirname, hcut]
        exact if_neg hall
      obtain ⟨n, hn⟩ := eq_dropRight_append '/' before
      have hkept := congrArg List.length hn
      rw [List.length_append] at hkept
      rw [hdir, String.length_ofList]
      omega

private theorem length_basename_le (p : String) : (basename p).length ≤ p.length := by
  rw [basename]
  split
  · exact Nat.le_refl _
  · next head tail hcut =>
    rw [String.length_ofList, ← String.length_toList, cutLast_eq_some hcut, List.length_append,
      List.length_cons]
    omega

/-- A path is more than its extension. -/
theorem splitExtension_ne_empty {p : String} (h : p ≠ "") : (splitExtension p).1 ≠ "" := by
  rw [splitExtension]
  split
  · next stem ext hcut =>
    split_ifs
    · exact h
    · -- the point is not the first character of the path
      have hname : (basename p).length = stem.length + (ext.length + 1) := by
        rw [← String.length_toList, cutLast_eq_some hcut, List.length_append, List.length_cons]
      have hlength := length_basename_le p
      have hstem : stem ≠ [] := by
        rintro rfl
        contradiction
      have hpos := List.length_pos_of_ne_nil hstem
      intro hempty
      have htake := congrArg String.length hempty
      rw [String.length_ofList, List.length_take, String.length_toList, String.length_empty]
        at htake
      omega
  · exact h

/-- What is left of an absolute path without its extension is absolute. -/
theorem isAbsolute_splitExtension {p : String} (h : isAbsolute p = true) :
    isAbsolute (splitExtension p).1 = true := by
  have hne := splitExtension_ne_empty (ne_empty_of_isAbsolute h)
  obtain ⟨cs, hcs⟩ := isAbsolute_iff.mp h
  have hprefix : (splitExtension p).1.toList <+: p.toList := by
    rw [splitExtension]
    split
    · split_ifs
      · exact List.prefix_refl _
      · rw [String.toList_ofList]
        exact List.take_prefix _ _
    · exact List.prefix_refl _
  rw [isAbsolute_iff]
  generalize (splitExtension p).1 = base at hne hprefix ⊢
  obtain ⟨rest, hrest⟩ := hprefix
  cases hbase : base.toList with
  | nil => exact absurd (String.toList_eq_nil_iff.mp hbase) hne
  | cons c front =>
    -- what is left begins as the path does
    rw [hbase, hcs, List.cons_append] at hrest
    exact ⟨front, by rw [(List.cons.inj hrest).1]⟩

/-- The way between absolute paths is the same from everywhere. -/
theorem relative_of_isAbsolute {p start : String} (hp : isAbsolute p = true)
    (hstart : isAbsolute start = true) (cwd cwd' : String) :
    relative cwd p start = relative cwd' p start := by
  simp only [relative, absolute, join_of_isAbsolute hp, join_of_isAbsolute hstart]

/-- There is a way from anywhere to every path but the empty one. -/
theorem exists_relative_iff {cwd p start : String} :
    (∃ way, relative cwd p start = .ok way) ↔ p ≠ "" := by
  rw [relative]
  by_cases hp : p = ""
  · simp [hp]
  · rw [if_neg hp]
    refine ⟨fun _ => hp, fun _ => ?_⟩
    split
    · exact ⟨_, rfl⟩
    · exact ⟨_, rfl⟩

end Path

end ApiOutline
