import ApiOutline.Disk.Glob
import ApiOutline.Proofs.Disk.Names
import ApiOutline.Proofs.Outcome

/-!
# The paths that a pattern finds

Every path that a pattern finds is spelled from the folder where the search begins by adding steps
to it. The steps are names of entries on the disk, or segments of the pattern that are taken as they
are, and `..` is among them exactly when it is a segment of the pattern (`goesOn_of_mem_glob`). So a
pattern without `..` finds normal paths only, and one with `..` finds none.
-/

namespace ApiOutline

open ApiOutline.Path (IsStep IsName IsRoot spell)

namespace Disk

/-- The path `q` goes on from the given steps; it climbs or it does not. -/
def GoesOn (root : String) (steps : List String) (climbs : Prop) (q : String) : Prop :=
  ∃ more, (∀ s ∈ more, IsStep s) ∧ q = spell root (steps ++ more) ∧ (".." ∈ more ↔ climbs)

variable {d : Disk} {root : String} {steps : List String}

theorem isStep_append {more : List String} (h : ∀ s ∈ steps, IsStep s)
    (hmore : ∀ s ∈ more, IsStep s) : ∀ s ∈ steps ++ more, IsStep s :=
  fun s hs => (List.mem_append.mp hs).elim (h s) (hmore s)

theorem child_spell (hr : IsRoot root) (h : ∀ s ∈ steps, IsStep s) {s : String} (hs : IsStep s) :
    child (spell root steps) s = spell root (steps ++ [s]) :=
  Path.tidy_join_spell hr h hs

namespace GoesOn

/-- Going nowhere. -/
theorem refl (root : String) (steps : List String) : GoesOn root steps False (spell root steps) :=
  ⟨[], by simp, by simp, by simp⟩

theorem of_isName {n : String} (hn : IsName n) :
    GoesOn root steps False (spell root (steps ++ [n])) :=
  ⟨[n], by simpa using hn.toIsStep, rfl, by simpa using hn.ne_up.symm⟩

/-- Going on in two parts climbs if one of them does. -/
theorem trans {more : List String} {climbs : Prop} {q : String}
    (h : GoesOn root (steps ++ more) climbs q) (hmore : ∀ s ∈ more, IsStep s) :
    GoesOn root steps (".." ∈ more ∨ climbs) q := by
  obtain ⟨rest, hrest, rfl, hclimbs⟩ := h
  refine ⟨more ++ rest, isStep_append hmore hrest, by rw [List.append_assoc], ?_⟩
  rw [List.mem_append, hclimbs]

/-- Going on after a name. -/
theorem after_name {n : String} (hn : IsName n) {climbs : Prop} {q : String}
    (h : GoesOn root (steps ++ [n]) climbs q) : GoesOn root steps climbs q := by
  have htrans := h.trans (by simpa using hn.toIsStep)
  simpa [hn.ne_up.symm] using htrans

/-- A path that goes on from names is normal unless it climbs. -/
theorem normalize_eq_self_iff (hr : IsRoot root) (hsteps : ∀ n ∈ steps, IsName n) {climbs : Prop}
    {q : String} (h : GoesOn root steps climbs q) : Path.normalize q = q ↔ ¬climbs := by
  obtain ⟨more, hmore, rfl, hclimbs⟩ := h
  have hup : ".." ∉ steps := fun hmem => (hsteps _ hmem).ne_up rfl
  rw [Path.normalize_spell_eq_self_iff hr
    (isStep_append (fun n hn => (hsteps n hn).toIsStep) hmore), List.mem_append, hclimbs]
  simp [hup]

theorem isAbsolute (hr : IsRoot root) {climbs : Prop} {q : String}
    (h : GoesOn root steps climbs q) : Path.isAbsolute q = true := by
  obtain ⟨more, -, rfl, -⟩ := h
  exact Path.isAbsolute_spell hr _

end GoesOn

/-! ### Looking at a path -/

/-- What is looked at and found to be a file is one. -/
private theorem isFile_of_probe {p : String} {item : Option Item} (h : d.probe p = .ok item)
    (hfile : item.any Item.isFile = true) : d.isFile p = true := by
  rw [probe] at h
  split at h
  · next found hfind =>
    obtain rfl := Except.ok.inj h
    rw [isFile, hfind]
    exact hfile
  · cases h
  · obtain rfl := Except.ok.inj h
    cases hfile

/-- The empty path leads nowhere. -/
theorem ne_empty_of_isFile {p : String} (h : d.isFile p = true) : p ≠ "" := by
  rintro rfl
  rw [isFile, find, locate, refusal?, if_neg (by decide), if_neg (by decide), if_pos rfl] at h
  cases h

/-! ### Folders below a folder -/

theorem foldersAt_link (cause : Cause) (room : Nat) (p name target : String) :
    foldersAt d cause room p name (.link target) =
      match d.entryIsFolder p name (.link target) with
      | .ok _ => []
      | .error f => [.fault f] := by rfl

theorem foldersAt_folder (cause : Cause) (room : Nat) (p name : String)
    (entries : List (String × Item)) : foldersAt d cause (room + 1) p name (.folder entries) =
      .path (child p name) ::
        (if maxPath < byteSize (child p name) then [.fault ⟨.nameTooLong, child p name⟩]
          else foldersAmong d cause room (child p name) entries) := by rfl

theorem foldersAmong_cons (cause : Cause) (room : Nat) (p name : String) (item : Item)
    (rest : List (String × Item)) : foldersAmong d cause room p ((name, item) :: rest) =
      foldersAt d cause room p name item ++ foldersAmong d cause room p rest := by rfl

-- the induction is over the tree of items, as the definitions are

mutual

private theorem goesOn_of_mem_foldersAt (hr : IsRoot root) {cause : Cause} {q : String} :
    ∀ (item : Item) {room : Nat} {steps : List String} {name : String},
      (∀ s ∈ steps, IsStep s) → IsName name → item.wellNamed = true →
      .path q ∈ foldersAt d cause room (spell root steps) name item → GoesOn root steps False q
  | .file _, _, _, _, _, _, _, h => absurd h List.not_mem_nil
  | .link _, _, _, _, _, _, _, h => by
    rw [foldersAt_link] at h
    split at h
    · cases h
    · cases List.mem_singleton.mp h
  | .folder _, 0, _, _, _, _, _, h => by cases List.mem_singleton.mp h
  | .folder entries, room + 1, steps, name, hsteps, hname, hitem, h => by
    rw [foldersAt_folder, child_spell hr hsteps hname.toIsStep] at h
    rcases List.mem_cons.mp h with heq | h
    · obtain rfl := Find.path.inj heq
      exact .of_isName hname
    · split at h
      · cases List.mem_singleton.mp h
      · rw [Item.wellNamed] at hitem
        exact (goesOn_of_mem_foldersAmong hr entries
          (Path.isStep_append_singleton hsteps hname.toIsStep) hitem h).after_name hname

private theorem goesOn_of_mem_foldersAmong (hr : IsRoot root) {cause : Cause} {q : String} :
    ∀ (entries : List (String × Item)) {room : Nat} {steps : List String},
      (∀ s ∈ steps, IsStep s) → Item.wellNamedIn entries = true →
      .path q ∈ foldersAmong d cause room (spell root steps) entries → GoesOn root steps False q
  | [], _, _, _, _, h => absurd h List.not_mem_nil
  | (name, item) :: rest, _, _, hsteps, hentries, h => by
    obtain ⟨hname, hitem, hrest⟩ := Item.wellNamedIn_cons_iff.mp hentries
    rw [foldersAmong_cons] at h
    rcases List.mem_append.mp h with h | h
    · exact goesOn_of_mem_foldersAt hr item hsteps hname hitem h
    · exact goesOn_of_mem_foldersAmong hr rest hsteps hrest h

end

theorem wellNamedIn_of_entriesAt (hd : d.WellNamed) {p : String} {entries : List (String × Item)}
    (h : d.entriesAt p = .ok entries) : Item.wellNamedIn entries = true := by
  rw [entriesAt] at h
  split at h
  · next found hfind =>
    exact Except.ok.inj h ▸ wellNamedIn_of_find hd hfind
  · cases h
  · obtain rfl := Except.ok.inj h
    rfl

private theorem goesOn_of_mem_foldersFrom (hd : d.WellNamed) (hr : IsRoot root)
    (hsteps : ∀ s ∈ steps, IsStep s) {cause : Cause} {q : String}
    (h : .path q ∈ d.foldersFrom cause (spell root steps)) : GoesOn root steps False q := by
  rw [foldersFrom] at h
  rcases List.mem_cons.mp h with heq | h
  · obtain rfl := Find.path.inj heq
    exact .refl root steps
  · split at h
    · next entries hentries =>
      exact goesOn_of_mem_foldersAmong hr entries hsteps (wellNamedIn_of_entriesAt hd hentries) h
    · cases List.mem_singleton.mp h

/-! ### Entries that a wildcard accepts -/

private theorem goesOn_of_mem_accepted (hd : d.WellNamed) (hr : IsRoot root)
    (hsteps : ∀ s ∈ steps, IsStep s) {tokens : List Wildcard.Token} {foldersOnly : Bool}
    {q : String} (h : .path q ∈ d.accepted tokens foldersOnly (spell root steps)) :
    GoesOn root steps False q := by
  rw [accepted] at h
  split at h
  · next entries hentries =>
    obtain ⟨⟨name, item⟩, hentry, h⟩ := List.mem_flatMap.mp h
    have hname : IsName name :=
      (Item.wellNamedIn_iff.mp (wellNamedIn_of_entriesAt hd hentries) _ hentry).1
    rw [acceptedEntry] at h
    split at h
    · cases List.mem_singleton.mp h
    · split at h
      · obtain rfl := Find.path.inj (List.mem_singleton.mp h)
        rw [child_spell hr hsteps hname.toIsStep]
        exact .of_isName hname
      · cases h
  · cases List.mem_singleton.mp h

/-! ### Selecting -/

section Equations

-- looking a path up is not to be unfolded when the equations of a selection are checked
attribute [local irreducible] probe

variable (d) (foldersOnly : Bool) (rest : List Pattern.Selector) (p : String)

theorem select_nil : d.select foldersOnly [] p = [.path p] := by rfl

theorem select_exact (name : String) :
    d.select foldersOnly (.exact name :: rest) p =
      match d.probe (child p name) with
      | .error f => [.fault f]
      | .ok none => []
      | .ok (some item) =>
        if (foldersOnly || !rest.isEmpty) && !item.isFolder then []
        else d.select foldersOnly rest (child p name) := by rfl

theorem select_wild (tokens : List Wildcard.Token) :
    d.select foldersOnly (.wild tokens :: rest) p =
      (d.accepted tokens (foldersOnly || !rest.isEmpty) p).flatMap
        (Find.andThen (d.select foldersOnly rest)) := by rfl

theorem select_deep :
    d.select foldersOnly (.deep :: rest) p =
      ((d.foldersFrom (causeTooDeep rest) p).flatMap
        (Find.andThen (d.select foldersOnly rest))).eraseDups := by rfl

theorem filesAmong_path (finds : List Find) : d.filesAmong (.path p :: finds) = (do
    let found ← d.probe p
    let others ← d.filesAmong finds
    return if found.any Item.isFile then p :: others else others) := by rfl

end Equations

/-- Going on from whatever was found. -/
private theorem goesOn_of_mem_andThen {finds : List Find} {next : String → List Find}
    {climbs : Prop} {q : String} (hsteps : ∀ s ∈ steps, IsStep s)
    (hfinds : ∀ p, .path p ∈ finds → GoesOn root steps False p)
    (hnext : ∀ {steps : List String}, (∀ s ∈ steps, IsStep s) → .path q ∈ next (spell root steps) →
      GoesOn root steps climbs q)
    (h : .path q ∈ finds.flatMap (Find.andThen next)) : GoesOn root steps climbs q := by
  obtain ⟨find, hfind, h⟩ := List.mem_flatMap.mp h
  cases find with
  | fault f => cases List.mem_singleton.mp h
  | path p =>
    obtain ⟨more, hmore, rfl, hclimbs⟩ := hfinds p hfind
    have htrans := (hnext (isStep_append hsteps hmore) h).trans hmore
    rwa [hclimbs, false_or] at htrans

/-- **What selectors find** goes on from where they begin, and climbs if one of them is `..`. -/
theorem goesOn_of_mem_select (hd : d.WellNamed) (hr : IsRoot root)
    {selectors : List Pattern.Selector} (hexact : ∀ name, .exact name ∈ selectors → IsStep name)
    (hsteps : ∀ s ∈ steps, IsStep s) {foldersOnly : Bool} {q : String}
    (h : .path q ∈ d.select foldersOnly selectors (spell root steps)) :
    GoesOn root steps (.exact ".." ∈ selectors) q := by
  induction selectors generalizing steps with
  | nil =>
    rw [select_nil] at h
    obtain rfl := Find.path.inj (List.mem_singleton.mp h)
    simpa using GoesOn.refl root steps
  | cons selector rest ih =>
    have hrest : ∀ name, .exact name ∈ rest → IsStep name :=
      fun name hname => hexact name (List.mem_cons_of_mem _ hname)
    have hnext {steps : List String} (hsteps : ∀ s ∈ steps, IsStep s)
        (h : .path q ∈ d.select foldersOnly rest (spell root steps)) := ih hrest hsteps h
    cases selector with
    | exact name =>
      -- the only selector that can climb: its segment is added as it is
      have hname : IsStep name := hexact name List.mem_cons_self
      rw [select_exact, child_spell hr hsteps hname] at h
      split at h
      · cases List.mem_singleton.mp h
      · cases h
      · split at h
        · cases h
        · have htrans := (hnext (Path.isStep_append_singleton hsteps hname) h).trans
            (by simpa using hname)
          simpa using htrans
    | wild tokens =>
      rw [select_wild] at h
      have hall := goesOn_of_mem_andThen hsteps
        (fun p hp => goesOn_of_mem_accepted hd hr hsteps hp) hnext h
      simpa using hall
    | deep =>
      rw [select_deep, List.mem_eraseDups] at h
      have hall := goesOn_of_mem_andThen hsteps
        (fun p hp => goesOn_of_mem_foldersFrom hd hr hsteps hp) hnext h
      simpa using hall

/-- A path is kept if it stands for a file, after it has been looked at. -/
theorem filesAmong_path_eq_ok_iff {p : String} {finds : List Find} {found : List String} :
    d.filesAmong (.path p :: finds) = .ok found ↔ ∃ item, d.probe p = .ok item ∧
      ∃ others, d.filesAmong finds = .ok others ∧
        found = if item.any Item.isFile then p :: others else others := by
  simp only [filesAmong_path, Except.bind_eq_ok_iff, pure, Except.pure, Except.ok.injEq,
    eq_comm (a := found)]

/-- What is kept was found, and is a file. -/
theorem mem_of_mem_filesAmong {finds : List Find} {found : List String}
    (h : d.filesAmong finds = .ok found) {q : String} (hq : q ∈ found) :
    .path q ∈ finds ∧ d.isFile q = true := by
  induction finds generalizing found with
  | nil =>
    obtain rfl := Except.ok.inj h
    cases hq
  | cons find rest ih =>
    cases find with
    | fault f => cases h
    | path p =>
      obtain ⟨item, hitem, others, hothers, rfl⟩ := filesAmong_path_eq_ok_iff.mp h
      have hrest (hq : q ∈ others) : .path q ∈ Find.path p :: rest ∧ d.isFile q = true :=
        ⟨List.mem_cons_of_mem _ (ih hothers hq).1, (ih hothers hq).2⟩
      split at hq
      · next hfile =>
        rcases List.mem_cons.mp hq with rfl | hq
        · exact ⟨List.mem_cons_self, isFile_of_probe hitem hfile⟩
        · exact hrest hq
      · exact hrest hq

theorem isFile_of_mem_glob {root : String} {pattern : Pattern} {found : List String}
    (h : d.glob root pattern = .ok found) {q : String} (hq : q ∈ found) : d.isFile q = true := by
  rw [glob] at h
  obtain ⟨item, -, h⟩ := Except.bind_eq_ok_iff.mp h
  split at h
  · exact (mem_of_mem_filesAmong h hq).2
  · obtain rfl := Except.ok.inj h
    cases hq

end Disk

/-! ### Reading a pattern -/

namespace Pattern

private theorem eq_of_ofSegment {segment name : String}
    (h : Selector.ofSegment segment = .ok (.exact name)) : segment = name := by
  rw [Selector.ofSegment] at h
  split_ifs at h
  · cases h
  · cases h
  · exact Selector.exact.inj (Except.ok.inj h)

/-- The segments of a pattern. -/
def parts (text : String) : List String :=
  (Path.names text).filter (· ≠ ".")

/-- A pattern is taken if it is a relative path of at least one segment and not too many, and `**`
stands in it as a whole segment only. -/
structure Acceptable (limit : Nat) (text : String) : Prop where
  relative : Path.isAbsolute text = false
  some_part : parts text ≠ []
  few_parts : (parts text).length ≤ limit
  deep : ∀ segment ∈ parts text, Text.contains segment "**" = true → segment = "**"

private theorem exists_ofSegment_iff {segment : String} :
    (∃ selector, Selector.ofSegment segment = .ok selector) ↔
      (Text.contains segment "**" = true → segment = "**") := by
  rw [Selector.ofSegment]
  split_ifs with hdeep hcontains hmark
  · exact iff_of_true ⟨_, rfl⟩ fun _ => hdeep
  · exact iff_of_false nofun fun h => hdeep (h hcontains)
  · exact iff_of_true ⟨_, rfl⟩ fun h => absurd h hcontains
  · exact iff_of_true ⟨_, rfl⟩ fun h => absurd h hcontains

/-- Segments that are not too many are read one by one. -/
theorem selectorsOf_eq_ok_iff {limit : Nat} {segments : List String} {selectors : List Selector} :
    selectorsOf limit segments = .ok selectors ↔ segments.length ≤ limit ∧
      segments.mapM Selector.ofSegment = .ok selectors := by
  rw [selectorsOf, Except.bind_eq_ok_iff]
  constructor
  · rintro ⟨read, hread, h⟩
    split_ifs at h with hlength
    · cases h
    have hfew := Nat.le_of_not_lt hlength
    rw [List.take_of_length_le hfew] at hread
    exact ⟨hfew, Except.ok.inj h ▸ hread⟩
  · rintro ⟨hfew, hread⟩
    rw [List.take_of_length_le hfew]
    refine ⟨selectors, hread, ?_⟩
    rw [if_neg (Nat.not_lt.mpr hfew)]
    rfl

private theorem exists_selectorsOf_iff {limit : Nat} {segments : List String} :
    (∃ selectors, selectorsOf limit segments = .ok selectors) ↔
      segments.length ≤ limit ∧
        ∀ segment ∈ segments, Text.contains segment "**" = true → segment = "**" := by
  simp only [selectorsOf_eq_ok_iff, exists_and_left, Except.exists_mapM_eq_ok_iff,
    exists_ofSegment_iff]

theorem read_eq (limit : Nat) (text : String) : read limit text =
    if text = "" then .error .empty
    else if Path.isAbsolute text then .error .absolute
    else if (parts text).isEmpty then
      .error (if Text.endsWith text "/" then .onlySlash else .noSegment)
    else (selectorsOf limit (parts text)).map fun selectors =>
      ⟨selectors, Text.endsWith text "/"⟩ := by
  rfl

/-- **Exactly the acceptable patterns** are taken. -/
theorem exists_read_iff {limit : Nat} {text : String} :
    (∃ pattern, read limit text = .ok pattern) ↔ Acceptable limit text := by
  rw [read_eq]
  constructor
  · rintro ⟨pattern, h⟩
    split_ifs at h with hempty habs hnone
    obtain ⟨selectors, hselectors, -⟩ := Except.map_eq_ok_iff.mp h
    obtain ⟨hfew, hdeep⟩ := exists_selectorsOf_iff.mp ⟨selectors, hselectors⟩
    exact ⟨Bool.eq_false_iff.mpr habs, fun h => hnone (List.isEmpty_iff.mpr h), hfew, hdeep⟩
  · intro h
    have hempty : text ≠ "" := by
      rintro rfl
      exact h.some_part rfl
    obtain ⟨selectors, hselectors⟩ := exists_selectorsOf_iff.mpr ⟨h.few_parts, h.deep⟩
    rw [if_neg hempty, if_neg (Bool.eq_false_iff.mp h.relative),
      if_neg (fun hnone => h.some_part (List.isEmpty_iff.mp hnone)), hselectors]
    exact ⟨_, rfl⟩

/-- A pattern that is read has a selector for each segment but the points. -/
theorem mapM_ofSegment_of_read {limit : Nat} {text : String} {pattern : Pattern}
    (h : read limit text = .ok pattern) :
    ((Path.names text).filter (· ≠ ".")).mapM Selector.ofSegment = .ok pattern.selectors := by
  simp only [read] at h
  split_ifs at h
  obtain ⟨selectors, hselectors, rfl⟩ := Except.map_eq_ok_iff.mp h
  exact (selectorsOf_eq_ok_iff.mp hselectors).2

/-- The segments of a pattern that are taken as they are, `..` among them. -/
theorem exact_mem_of_read {limit : Nat} {text : String} {pattern : Pattern}
    (h : read limit text = .ok pattern) :
    (∀ name, .exact name ∈ pattern.selectors → IsStep name) ∧
      (.exact ".." ∈ pattern.selectors ↔ ".." ∈ Path.names text) := by
  obtain ⟨hfrom, hto⟩ := Except.mem_of_mapM_eq_ok (mapM_ofSegment_of_read h)
  have hmem (name : String) (hname : .exact name ∈ pattern.selectors) :
      name ∈ Path.names text ∧ name ≠ "." := by
    obtain ⟨segment, hsegment, heq⟩ := hfrom _ hname
    rw [eq_of_ofSegment heq] at hsegment
    simpa using hsegment
  refine ⟨fun name hname => ?_, fun hup => (hmem _ hup).1, fun hup => ?_⟩
  · obtain ⟨hnames, hdot⟩ := hmem name hname
    exact ⟨(Path.mem_names.mp hnames).2, hdot, Path.no_slash_of_mem_names hnames⟩
  · -- two points are no wildcard, so the segment is taken as it is
    obtain ⟨selector, hselector, heq⟩ := hto ".." (by simpa using hup)
    have hexact : Selector.ofSegment ".." = .ok (.exact "..") := by
      rw [Selector.ofSegment, if_neg (by decide), if_neg (by decide), if_neg (by decide)]
    rw [hexact] at heq
    exact Except.ok.inj heq ▸ hselector

end Pattern

/-- **What a pattern finds** from a normal folder goes on from there, and climbs if `..` is a
segment of the pattern. -/
theorem Disk.goesOn_of_mem_glob {d : Disk} (hd : d.WellNamed) {root : String} (hr : IsRoot root)
    {steps : List String} (hsteps : ∀ s ∈ steps, IsStep s) {limit : Nat} {text : String}
    {pattern : Pattern} (hread : Pattern.read limit text = .ok pattern) {found : List String}
    (h : d.glob (spell root steps) pattern = .ok found) {q : String} (hq : q ∈ found) :
    GoesOn root steps (".." ∈ Path.names text) q := by
  obtain ⟨hexact, hup⟩ := Pattern.exact_mem_of_read hread
  rw [glob, Path.tidy_spell hr hsteps] at h
  obtain ⟨item, -, h⟩ := Except.bind_eq_ok_iff.mp h
  split at h
  · rw [← hup]
    exact goesOn_of_mem_select hd hr hexact hsteps (mem_of_mem_filesAmong h hq).1
  · obtain rfl := Except.ok.inj h
    cases hq

end ApiOutline
