import ApiOutline.Proofs.Relocation.Agreement

/-!
# Copies of a tree

Two folders that hold the same entries are copies of each other if no link stands below them and no
path of what stands there is too long in either place (`copies_of_tree`). They may lie anywhere, on
one disk or on two with the same limits, and links may lead to them: a walk that stays inside a
folder sees nothing of what is above it.

Looking up begins with the whole path, and a path is refused for a character in it as it is for its
length. Only the length has to do with the folder, since its own path is not refused.
-/

namespace ApiOutline

open ApiOutline.Path (IsStep IsName Folder within? step?)

/-! ### How far a tree goes down -/

namespace Item

mutual

/-- How many names lead down from an item at most. -/
def height : Item → Nat
  | .folder entries => heightIn entries
  | .file _ => 0
  | .link _ => 0

/-- How many names lead down from a folder with some entries at most. -/
def heightIn : List (String × Item) → Nat
  | [] => 0
  | (_, item) :: rest => max (item.height + 1) (heightIn rest)

end

private theorem height_lt_of_mem {entries : List (String × Item)} {name : String} {item : Item}
    (h : (name, item) ∈ entries) : item.height < heightIn entries := by
  induction entries with
  | nil => cases h
  | cons entry rest ih =>
    rw [heightIn]
    rcases List.mem_cons.mp h with rfl | h
    · exact Nat.le_max_left _ _
    · exact (ih h).trans_le (Nat.le_max_right _ _)

mutual

/-- A way to a folder is no longer than the tree is high. -/
theorem length_le_height : ∀ (item : Item) {way : List String}, way ∈ item.folders →
    way.length ≤ item.height
  | .folder entries, way, h => by
    rw [folders, List.mem_cons] at h
    rw [height]
    rcases h with rfl | h
    · exact Nat.zero_le _
    · exact length_le_heightIn entries h

private theorem length_le_heightIn : ∀ (entries : List (String × Item)) {way : List String},
    way ∈ foldersIn entries → way.length ≤ heightIn entries
  | (name, item) :: rest, way, h => by
    rw [foldersIn, List.mem_append, List.mem_map] at h
    rw [heightIn]
    rcases h with ⟨more, hmore, rfl⟩ | h
    · exact (Nat.succ_le_succ (length_le_height item hmore)).trans (Nat.le_max_left _ _)
    · exact (length_le_heightIn rest h).trans (Nat.le_max_right _ _)

end

end Item

namespace Disk

/-! ### Walking on -/

private theorem travel_congr {d : Disk} {purpose : Purpose} {links : Nat} {here here' : Place}
    {segments segments' : List String}
    (h : walk purpose here segments = walk purpose here' segments') :
    d.travel purpose links here segments = d.travel purpose links here' segments' := by
  rw [travel.eq_def, travel.eq_def d purpose links here', h]

/-- How far segments lead on from where others did. -/
def Stretch.on (more : List String) : Stretch → Except Cause Stretch
  | .goal (.there place) => walk .look place more
  | .goal (.gap _ _) => .error .notFound
  | .link folder target rest => .ok (.link folder target (rest ++ more))

/-- More segments are walked from where the others lead. -/
private theorem walk_append {here : Place} {segments more : List String} (hmore : more ≠ [])
    {stretch : Stretch} (h : walk .look here segments = .ok stretch) :
    walk .look here (segments ++ more) = stretch.on more := by
  induction segments generalizing here with
  | nil =>
    obtain rfl := Except.ok.inj h
    rfl
  | cons segment rest ih =>
    obtain ⟨entries, hentries, hadvance⟩ := exists_advance h
    rw [List.cons_append]
    cases hadvance with
    | skip hskip hrest => rw [walk_of_isSkipped hentries hskip, ih hrest]
    | up hup hrest => rw [walk_of_up hentries hup, ih hrest]
    | gap hname hlookup hrest =>
      rw [walk_look_of_isLookedFor hentries hname, hlookup, hrest, List.nil_append]
      exact if_neg (by simpa using hmore)
    | last hpurpose _ _ => cases hpurpose
    | link hname hlookup =>
      rw [walk_look_of_isLookedFor hentries hname, hlookup]
      rfl
    | enter hname hlookup hlink hrest =>
      rw [walk_look_of_lookup hentries hname hlookup hlink, ih hrest]

/-- Where segments lead from a place, more segments are walked from there, with as many links as are
left. -/
private theorem exists_travel_append {d : Disk} {links : Nat} {here there : Place}
    {segments : List String}
    (h : d.travel .look links here segments = .ok (.there there)) {more : List String}
    (hmore : more ≠ []) : ∃ left, d.travel .look links here (segments ++ more) =
      d.travel .look left there more := by
  replace h := travels_of_travel h
  induction h with
  | @goal links _ _ hwalk => exact ⟨links, travel_congr (walk_append hmore hwalk)⟩
  | @link links _ _ _ _ _ hwalk _ ih =>
    -- the link is met in the same place, and more is left to walk behind it
    obtain ⟨left, hleft⟩ := ih
    refine ⟨left, ?_⟩
    rw [travel_of_link (walk_append hmore hwalk) links, ← hleft, List.append_assoc]

/-! ### Walking inside a folder -/

/-- What stands at a goal. -/
def Goal.item? : Goal → Except Cause Item
  | .there place => .ok place.item
  | .gap _ _ => .error .notFound

theorem find_eq (d : Disk) (p : String) : d.find p = d.locate .look p >>= Goal.item? := by
  rw [find]
  rcases d.locate .look p with _ | (_ | _) <;> rfl

private theorem item?_of_walk_error {here : Place} {segments : List String} {cause : Cause}
    (h : walk .look here segments = .error cause) (d : Disk) (links : Nat) :
    (d.travel .look links here segments >>= Goal.item?) = .error cause := by
  rw [travel.eq_def, h]
  rfl

theorem item?_of_walk_goal {here : Place} {segments : List String} {g : Goal}
    (h : walk .look here segments = .ok (.goal g)) (d : Disk) (links : Nat) :
    (d.travel .look links here segments >>= Goal.item?) = g.item? := by
  rw [travel_of_goal h]
  rfl

/-- A segment that names something leads to an entry, where no link stands. -/
theorem item?_cons {entries : List (String × Item)} (hfree : Item.linkFreeIn entries = true)
    {segment : String} (hskip : ¬IsSkipped segment) (hup : segment ≠ "..")
    (rest : List String) (d : Disk) (links : Nat) (above : List (String × List (String × Item))) :
    (d.travel .look links ⟨.folder entries, above⟩ (segment :: rest) >>= Goal.item?) =
      if maxName < byteSize segment then .error .nameTooLong
      else
        match entries.lookup (canonical segment) with
        | none => .error .notFound
        | some item =>
          d.travel .look links ⟨item, (segment, entries) :: above⟩ rest >>= Goal.item? := by
  by_cases hlong : maxName < byteSize segment
  · rw [if_pos hlong]
    exact item?_of_walk_error (walk_look_of_long rfl hskip hup hlong) d links
  have hname : IsLookedFor segment := ⟨hskip, hup, Nat.le_of_not_lt hlong⟩
  have hstep : walk .look ⟨.folder entries, above⟩ (segment :: rest) = _ :=
    walk_look_of_isLookedFor rfl hname
  rw [if_neg hlong]
  cases hlookup : entries.lookup (canonical segment) with
  | none =>
    rw [hlookup] at hstep
    dsimp only at hstep ⊢
    split_ifs at hstep
    · exact item?_of_walk_goal hstep d links
    · exact item?_of_walk_error hstep d links
  | some item =>
    have hlink : ∀ target, item ≠ .link target := by
      rintro target rfl
      cases Item.linkFree_of_lookup hfree hlookup
    exact congrArg (· >>= Goal.item?) (travel_congr (walk_look_of_lookup rfl hname hlookup hlink))

/-- **A walk that stays inside a tree** without links depends neither on the disk, nor on how many
links it may still follow, nor on what is above the tree. -/
theorem exists_item_below {item : Item} (hfree : item.linkFree = true)
    {inner : List (String × List (String × Item))}
    (hinner : ∀ step ∈ inner, Item.linkFreeIn step.2 = true) {segments : List String}
    (hinside : (segments.foldlM step? (inner.map Prod.fst)).isSome = true) :
    ∃ x, ∀ (d : Disk) (links : Nat) (outer : List (String × List (String × Item))),
      (d.travel .look links ⟨item, inner ++ outer⟩ segments >>= Goal.item?) = x := by
  induction segments generalizing item inner with
  | nil =>
    exact ⟨.ok item, fun d links outer =>
      item?_of_walk_goal (g := .there ⟨item, inner ++ outer⟩) rfl d links⟩
  | cons segment rest ih =>
    cases item with
    | folder entries =>
      rw [List.foldlM_cons, Path.step?.eq_def] at hinside
      by_cases hskip : IsSkipped segment
      · rw [if_pos (isSkipped_iff.mp hskip)] at hinside
        obtain ⟨x, hx⟩ := ih hfree hinner hinside
        exact ⟨x, fun d links outer =>
          by rw [travel_congr (walk_of_isSkipped rfl hskip), hx]⟩
      rw [if_neg (mt isSkipped_iff.mpr hskip)] at hinside
      by_cases hup : segment = ".."
      · -- a step up stays inside as long as there is an inner folder to leave
        rw [if_pos hup] at hinside
        cases inner with
        | nil => cases hinside
        | cons step inner =>
          obtain ⟨htop, hinner⟩ := List.forall_mem_cons.mp hinner
          obtain ⟨x, hx⟩ := @ih (.folder step.2) htop inner hinner hinside
          refine ⟨x, fun d links outer => ?_⟩
          rw [travel_congr (walk_of_up rfl hup)]
          exact hx d links outer
      rw [if_neg hup] at hinside
      simp only [item?_cons hfree hskip hup rest]
      by_cases hlong : maxName < byteSize segment
      · simp only [if_pos hlong]
        exact ⟨_, fun _ _ _ => rfl⟩
      simp only [if_neg hlong]
      cases hlookup : entries.lookup (canonical segment) with
      | none => exact ⟨_, fun _ _ _ => rfl⟩
      | some item =>
        exact @ih item (Item.linkFree_of_lookup hfree hlookup) ((segment, entries) :: inner)
          (List.forall_mem_cons.mpr ⟨hfree, hinner⟩) hinside
    | file contents => exact ⟨_, fun d links outer => item?_of_walk_error rfl d links⟩
    | link target => cases hfree

/-! ### Paths that are refused -/

/-- A text is refused for a surrogate in it wherever that stands. -/
theorem isSome_unwritableFrom (as : List Symbol) (position : Nat) :
    (unwritableFrom position as).isSome = true ↔
      ∃ unit, Symbol.lone unit ∈ as ∧ isByteUnit unit = false := by
  induction as generalizing position with
  | nil => simp [unwritableFrom]
  | cons a as ih =>
    cases a with
    | lone unit =>
      cases hunit : isByteUnit unit with
      | true => simp [unwritableFrom, hunit, ih]
      | false => simp [unwritableFrom, hunit]
    | _ => simp [unwritableFrom, ih]

/-- A path that can be handed to the disk holds nothing for which it would be refused. -/
theorem not_mem_of_refusal? {p : String} (h : refusal? p = none) :
    (¬∃ unit, Symbol.lone unit ∈ Text.symbols p ∧ isByteUnit unit = false) ∧
      Char.ofNat 0 ∉ p.toList := by
  rw [refusal?] at h
  split_ifs at h with hunit hzero
  rw [unwritable?, isSome_unwritableFrom] at hunit
  exact ⟨hunit, fun hmem => hzero (List.contains_iff_mem.mpr hmem)⟩

private theorem lt_byteSize_of_refusal? {p : String} (h : refusal? p = some .nameTooLong) :
    maxPath < byteSize p := by
  by_contra hsize
  rw [refusal?, if_neg hsize] at h
  split_ifs at h <;> cases h

/-- **Below a folder** that is not refused itself, a path is refused for a character in the rest or
for its length. -/
theorem refusal?_path {f : Folder} (h : refusal? (f.path []) = none) {steps : List String}
    (hne : steps ≠ []) :
    refusal? (f.path steps) =
      if (unwritable? ("/" ++ "/".intercalate steps)).isSome then some .unwritable
      else if ("/" ++ "/".intercalate steps).toList.contains (Char.ofNat 0) then some .endedName
      else if maxPath < byteSize (f.path steps) then some .nameTooLong
      else none := by
  obtain ⟨front, hfolder, hpath⟩ := f.exists_toList_path_steps
  have hrest : ("/" ++ "/".intercalate steps).toList = '/' :: ("/".intercalate steps).toList := by
    rw [String.toList_append]
    rfl
  have hlist : (f.path steps).toList = front ++ ("/" ++ "/".intercalate steps).toList := by
    rw [hpath steps hne, hrest]
  obtain ⟨hunit, hzero⟩ := not_mem_of_refusal? h
  have hfront : (¬∃ unit, Symbol.lone unit ∈ Text.symbolsOf front ∧ isByteUnit unit = false) ∧
      Char.ofNat 0 ∉ front := by
    rw [Text.symbols] at hunit
    rcases hfolder with hfolder | hfolder
    · rw [hfolder] at hunit hzero
      exact ⟨hunit, hzero⟩
    · rw [hfolder, Text.symbolsOf_append_cons (by decide)] at hunit
      rw [hfolder] at hzero
      refine ⟨?_, fun hmem => hzero (List.mem_append_left _ hmem)⟩
      rintro ⟨unit, hmem, hbad⟩
      exact hunit ⟨unit, List.mem_append_left _ hmem, hbad⟩
  have hunwritable : (unwritable? (f.path steps)).isSome =
      (unwritable? ("/" ++ "/".intercalate steps)).isSome := by
    rw [Bool.eq_iff_iff, unwritable?, unwritable?, isSome_unwritableFrom, isSome_unwritableFrom,
      Text.symbols, Text.symbols, hlist, hrest, Text.symbolsOf_append_cons (by decide)]
    constructor
    · rintro ⟨unit, hmem, hbad⟩
      rcases List.mem_append.mp hmem with hmem | hmem
      · exact absurd ⟨unit, hmem, hbad⟩ hfront.1
      · exact ⟨unit, hmem, hbad⟩
    · rintro ⟨unit, hmem, hbad⟩
      exact ⟨unit, List.mem_append_right _ hmem, hbad⟩
  have hended : (f.path steps).toList.contains (Char.ofNat 0) =
      ("/" ++ "/".intercalate steps).toList.contains (Char.ofNat 0) := by
    rw [Bool.eq_iff_iff, List.contains_iff_mem, List.contains_iff_mem, hlist, List.mem_append]
    exact or_iff_right hfront.2
  rw [refusal?, hunwritable, hended,
    if_neg (Path.ne_empty_of_isAbsolute (f.isAbsolute_path steps))]

/-! ### Paths that are not too long -/

/-- Names that a disk takes make up a path of bounded length. -/
private theorem byteSize_intercalate_le {names : List String} (hne : names ≠ [])
    (h : ∀ n ∈ names, byteSize n ≤ maxName) :
    byteSize ("/".intercalate names) + 1 ≤ (maxName + 1) * names.length := by
  rw [byteSize_intercalate_add_one hne]
  clear hne
  induction names with
  | nil => exact Nat.zero_le _
  | cons n rest ih =>
    obtain ⟨hn, hrest⟩ := List.forall_mem_cons.mp h
    have := ih hrest
    rw [List.map_cons, List.sum_cons, List.length_cons, Nat.mul_succ]
    omega

/-- A path below a folder is as long as its names allow. -/
private theorem byteSize_path_le (f : Folder) {names : List String}
    (h : ∀ n ∈ names, byteSize n ≤ maxName) :
    byteSize (f.path names) ≤ byteSize (f.path []) + (maxName + 1) * names.length := by
  by_cases hne : names = []
  · rw [hne]
    exact Nat.le_add_right _ _
  obtain ⟨front, hfolder, hpath⟩ := f.exists_toList_path_steps
  have hfront : byteSize (String.ofList front) ≤ byteSize (f.path []) := by
    rcases hfolder with hfolder | hfolder
    · rw [← hfolder, String.ofList_toList]
    · rw [byteSize_of_toList hfolder]
      omega
  have hsize := byteSize_of_toList (hpath names hne)
  rw [String.ofList_toList] at hsize
  have := byteSize_intercalate_le hne h
  omega

/-- What names lead to in a tree without links lies no deeper than the tree goes, and the names are
not too long. -/
theorem length_le_height {d : Disk} {links : Nat} {item found : Item}
    (hfree : item.linkFree = true) {above : List (String × List (String × Item))}
    {names : List String} (hnames : ∀ n ∈ names, IsName n)
    (h : (d.travel .look links ⟨item, above⟩ names >>= Goal.item?) = .ok found) :
    names.length ≤ item.height ∧ ∀ n ∈ names, byteSize n ≤ maxName := by
  induction names generalizing item above with
  | nil => exact ⟨Nat.zero_le _, by simp⟩
  | cons n rest ih =>
    obtain ⟨hn, hrest⟩ := List.forall_mem_cons.mp hnames
    cases item with
    | folder entries =>
      rw [item?_cons hfree (not_isSkipped_of_isName hn) hn.ne_up] at h
      split_ifs at h with hlong
      cases hlookup : entries.lookup (canonical n) with
      | none =>
        rw [hlookup] at h
        cases h
      | some item =>
        rw [hlookup] at h
        obtain ⟨hlength, hshort⟩ := ih (Item.linkFree_of_lookup hfree hlookup) hrest h
        have hheight := Item.height_lt_of_mem (Item.mem_of_lookup hlookup)
        refine ⟨?_, List.forall_mem_cons.mpr ⟨Nat.le_of_not_lt hlong, hshort⟩⟩
        rw [Item.height, List.length_cons]
        omega
    | file contents =>
      rw [item?_of_walk_error rfl] at h
      cases h
    | link target => cases hfree

/-! ### Identical trees -/

/-- The segments of a path below a folder lead from the root as the names of the folder and the rest
do. -/
private theorem walk_segments_path (d : Disk) (f : Folder) {segments : List String}
    (h : ∀ s ∈ segments, '/' ∉ s.toList) :
    walk .look d.root (Path.segments (f.path segments)) =
      walk .look d.root (f.names ++ segments) := by
  have hslash : ∀ s ∈ f.names ++ segments, '/' ∉ s.toList :=
    List.forall_mem_append.mpr ⟨fun n hn => (f.isName n hn).no_slash, h⟩
  have hskip (rest : List String) : walk .look d.root ("" :: rest) = walk .look d.root rest :=
    walk_of_isSkipped rfl (.inl rfl)
  have hone : walk .look d.root (Path.segments ("/" ++ "/".intercalate (f.names ++ segments))) =
      walk .look d.root (f.names ++ segments) := by
    rw [Path.segments_slash, hskip]
    by_cases hne : f.names ++ segments = []
    · rw [hne]
      exact hskip []
    · rw [Path.segments_intercalate hne hslash]
  rw [Folder.path, Path.spell]
  rcases f.isRoot with hr | hr <;> rw [hr]
  · exact hone
  · have hdouble : "//" = "/" ++ "/" := by decide
    rw [hdouble, String.append_assoc, Path.segments_slash, hskip, hone]

/-- **What stands below a folder** is found by walking on from the folder. -/
theorem exists_find_path {d : Disk} {f : Folder} {place : Place}
    (h : d.locate .look (f.path []) = .ok (.there place))
    (hfolder : refusal? (f.path []) = none) {segments : List String}
    (hslash : ∀ s ∈ segments, '/' ∉ s.toList) (hfit : refusal? (f.path segments) = none) :
    ∃ links, d.find (f.path segments) =
      d.travel .look links place segments >>= Goal.item? := by
  have hlocate {segments : List String} (hslash : ∀ s ∈ segments, '/' ∉ s.toList)
      (hfit : refusal? (f.path segments) = none) : d.locate .look (f.path segments) =
        d.travel .look maxLinks d.root (f.names ++ segments) := by
    rw [locate, hfit, wayOf, Path.join_of_isAbsolute (f.isAbsolute_path segments)]
    exact travel_congr (walk_segments_path d f hslash)
  have hroot : d.travel .look maxLinks d.root f.names = .ok (.there place) := by
    rw [← h, hlocate (by simp) hfolder, List.append_nil]
  rw [find_eq, hlocate hslash hfit]
  by_cases hne : segments = []
  · subst hne
    rw [List.append_nil, hroot]
    exact ⟨0, (item?_of_walk_goal (g := .there place) rfl d 0).symm⟩
  · obtain ⟨left, hleft⟩ := exists_travel_append hroot hne
    exact ⟨left, congrArg (· >>= Goal.item?) hleft⟩

theorem exists_locate_of_find {d : Disk} {p : String} {item : Item} (h : d.find p = .ok item) :
    ∃ above, d.locate .look p = .ok (.there ⟨item, above⟩) := by
  rw [find_eq] at h
  obtain ⟨goal, hlocate, hgoal⟩ := Except.bind_eq_ok_iff.mp h
  cases goal with
  | there place =>
    obtain rfl := Except.ok.inj hgoal
    exact ⟨place.above, hlocate⟩
  | gap folder segment => cases hgoal

/-- An entry stands at the path that goes on by its name. -/
theorem find_entry {d : Disk} {f : Folder} {entries : List (String × Item)}
    (h : d.find (f.path []) = .ok (.folder entries)) (hfree : Item.linkFreeIn entries = true)
    {name : String} (hname : IsName name) (hshort : byteSize name ≤ maxName)
    (hfit : refusal? (f.path [name]) = none) {item : Item}
    (hlookup : entries.lookup (canonical name) = some item) :
    d.find (f.path [name]) = .ok item := by
  obtain ⟨above, hplace⟩ := exists_locate_of_find h
  obtain ⟨links, hfind⟩ := exists_find_path hplace (refusal?_eq_none_of_find h)
    (List.forall_mem_singleton.mpr hname.no_slash) hfit
  rw [hfind, item?_cons hfree (not_isSkipped_of_isName hname) hname.ne_up,
    if_neg (Nat.not_lt.mpr hshort), hlookup]
  exact item?_of_walk_goal (g := .there ⟨item, (name, entries) :: above⟩) rfl d links

section

variable {d d' : Disk} {f f' : Folder} {entries : List (String × Item)}
  (h : d.find (f.path []) = .ok (.folder entries))
  (h' : d'.find (f'.path []) = .ok (.folder entries))

include h h'

/-- Paths with the same rest are refused for the same reason, or one of them for its length. -/
private theorem refusal?_path_path (segments : List String) :
    refusal? (f.path segments) = refusal? (f'.path segments) ∨
      refusal? (f.path segments) = some .nameTooLong ∨
        refusal? (f'.path segments) = some .nameTooLong := by
  have hfolder := refusal?_eq_none_of_find h
  have hfolder' := refusal?_eq_none_of_find h'
  by_cases hne : segments = []
  · rw [hne, hfolder, hfolder']
    exact .inl rfl
  rw [refusal?_path hfolder hne, refusal?_path hfolder' hne]
  split_ifs <;> simp

/-- Where neither path is refused, the same stands. -/
private theorem find_path_eq (hfree : Item.linkFreeIn entries = true) {segments : List String}
    (hslash : ∀ s ∈ segments, '/' ∉ s.toList) (hinside : (within? [] segments).isSome = true)
    (hfit : refusal? (f.path segments) = none) (hfit' : refusal? (f'.path segments) = none) :
    d.find (f.path segments) = d'.find (f'.path segments) := by
  obtain ⟨above, hplace⟩ := exists_locate_of_find h
  obtain ⟨above', hplace'⟩ := exists_locate_of_find h'
  obtain ⟨links, hfind⟩ := exists_find_path hplace (refusal?_eq_none_of_find h) hslash hfit
  obtain ⟨links', hfind'⟩ := exists_find_path hplace' (refusal?_eq_none_of_find h') hslash hfit'
  rw [within?, Option.isSome_map] at hinside
  obtain ⟨x, hx⟩ := @exists_item_below (.folder entries) hfree [] (by simp) segments hinside
  rw [hfind, hfind']
  exact (hx d links above).trans (hx d' links' above').symm

end

/-- **Identical trees are copies.** -/
theorem copies_of_tree {d d' : Disk} {f f' : Folder} {entries : List (String × Item)}
    (h : d.find (f.path []) = .ok (.folder entries))
    (h' : d'.find (f'.path []) = .ok (.folder entries)) (hlimits : d.limits = d'.limits)
    (hfree : Item.linkFreeIn entries = true)
    (hnames : ∀ way ∈ Item.foldersIn entries, ∀ n ∈ way, byteSize n ≤ maxName)
    (hroom : byteSize (f.path []) + (maxName + 1) * Item.heightIn entries ≤ maxPath)
    (hroom' : byteSize (f'.path []) + (maxName + 1) * Item.heightIn entries ≤ maxPath) :
    d.Copies f d' f' := by
  -- what is found below one folder can be looked up below the other
  have hcarry {d d' : Disk} {f f' : Folder} (h : d.find (f.path []) = .ok (.folder entries))
      (h' : d'.find (f'.path []) = .ok (.folder entries))
      (hroom' : byteSize (f'.path []) + (maxName + 1) * Item.heightIn entries ≤ maxPath)
      {names : List String} (hnames : ∀ n ∈ names, IsName n) {item : Item}
      (hitem : d.find (f.path names) = .ok item) : d'.find (f'.path names) = .ok item := by
    have hslash : ∀ n ∈ names, '/' ∉ n.toList := fun n hn => (hnames n hn).no_slash
    have hfit := refusal?_eq_none_of_find hitem
    have hshort : refusal? (f'.path names) ≠ some .nameTooLong := by
      intro hlong
      have hsize := lt_byteSize_of_refusal? hlong
      obtain ⟨above, hplace⟩ := exists_locate_of_find h
      obtain ⟨links, hfind⟩ := exists_find_path hplace (refusal?_eq_none_of_find h) hslash hfit
      obtain ⟨hheight, hnamesShort⟩ := @length_le_height d links (.folder entries) item hfree above
        names hnames (hfind.symm.trans hitem)
      have hpath := byteSize_path_le f' hnamesShort
      have hmul := Nat.mul_le_mul_left (maxName + 1) hheight
      rw [Item.height] at hmul
      omega
    have hfit' : refusal? (f'.path names) = none := by
      rcases refusal?_path_path h h' names with heq | hlong | hlong
      · rw [← heq, hfit]
      · rw [hfit] at hlong
        cases hlong
      · exact absurd hlong hshort
    rw [← find_path_eq h h' hfree hslash (by rw [Path.within?_of_isName hnames]; rfl) hfit hfit',
      hitem]
  have hfits {f : Folder}
      (hroom : byteSize (f.path []) + (maxName + 1) * Item.heightIn entries ≤ maxPath)
      {way : List String} (hway : way ∈ Item.foldersIn entries) :
      isOverlong (f.path way) = false := by
    have hpath := byteSize_path_le f (hnames way hway)
    have hmul := Nat.mul_le_mul_left (maxName + 1) (Item.length_le_heightIn entries hway)
    exact decide_eq_false (by omega)
  have hrefused {d : Disk} {p : String} {cause : Cause} (hr : refusal? p = some cause) :
      d.find p = .error cause := by
    rw [find_eq, locate, hr]
    rfl
  refine ⟨hlimits, ⟨entries, h⟩, fun segments hslash hinside => ?_, fun names hnames item =>
    ⟨hcarry h h' hroom' hnames, hcarry h' h hroom hnames⟩, fun entries' hentries way hway => ?_⟩
  · rcases refusal?_path_path h h' segments with heq | hlong | hlong
    · cases hr : refusal? (f.path segments) with
      | none => exact .inl (find_path_eq h h' hfree hslash hinside hr (heq ▸ hr))
      | some cause => exact .inl ((hrefused hr).trans (hrefused (heq ▸ hr)).symm)
    · exact .inr (.inl (hrefused hlong))
    · exact .inr (.inr (hrefused hlong))
  · obtain rfl := Item.folder.inj (Except.ok.inj (h.symm.trans hentries))
    rw [List.nil_append, hfits hroom hway, hfits hroom' hway]

end Disk

end ApiOutline
