import ApiOutline.Proofs.Disk.Glob
import ApiOutline.Proofs.Relocation.Agreement

/-!
# Searching in copies

A pattern finds the same in a folder and in its copy: one path after the other, corresponding paths
in the same order, up to the first fault (`finds_select`). A fault ends a search, so nothing is said
about what would come after one, and a path that is too long in one place may end the search there
alone.

A step up in a pattern must not lead out of the folder. How many names lie above a path that was
found is not known beforehand, as `**` may stand for any number of folders, but there are at least
as many as if it stood for none; `Pattern.Stays` counts them.
-/

namespace ApiOutline

open ApiOutline.Path (IsStep IsName Folder Inside within?)

/-! ### Patterns that stay inside -/

/-- No step up leads out of the folder in which `depth` names, or more, lead to the place at
hand. -/
def Pattern.Stays : Nat → List Pattern.Selector → Prop
  | _, [] => True
  | depth, .deep :: rest => Stays depth rest
  | depth, .wild _ :: rest => Stays (depth + 1) rest
  | depth, .exact name :: rest =>
    if name = ".." then 0 < depth ∧ Stays (depth - 1) rest else Stays (depth + 1) rest

namespace Pattern

/-- Segments that stay inside, also where `**` stands for no folder, are read as selectors that
do. -/
theorem stays_of_mapM {segments way : List String} {selectors : List Selector}
    (hsegments : ∀ s ∈ segments, IsStep s) (h : segments.mapM Selector.ofSegment = .ok selectors)
    (hwithin : (within? way (segments.filter (· ≠ "**"))).isSome = true) :
    Stays way.length selectors := by
  induction segments generalizing way selectors with
  | nil =>
    obtain rfl := Except.ok.inj h
    trivial
  | cons s rest ih =>
    obtain ⟨hs, hrest⟩ := List.forall_mem_cons.mp hsegments
    rw [List.mapM_cons] at h
    obtain ⟨selector, hselector, h⟩ := Except.bind_eq_ok_iff.mp h
    obtain ⟨others, hothers, h⟩ := Except.bind_eq_ok_iff.mp h
    obtain rfl := Except.ok.inj h
    rw [Selector.ofSegment] at hselector
    split_ifs at hselector with hdeep _ hmark
    · -- `**` may stand for no folder, so it is not counted
      obtain rfl := Except.ok.inj hselector
      rw [List.filter_cons_of_neg (by simpa using hdeep)] at hwithin
      rw [Stays]
      exact ih hrest hothers hwithin
    all_goals
      obtain rfl := Except.ok.inj hselector
      rw [List.filter_cons_of_pos (by simpa using hdeep), Path.within?_cons] at hwithin
    · have hname : IsName s := ⟨hs, by rintro rfl; exact absurd hmark (by decide)⟩
      rw [Path.within?_singleton hname, Option.bind_some] at hwithin
      have hstays := ih hrest hothers hwithin
      rwa [List.length_append, List.length_singleton] at hstays
    · rw [Stays]
      split_ifs with hup
      · subst hup
        rcases List.eq_nil_or_concat' way with rfl | ⟨init, last, rfl⟩
        · cases hwithin
        · rw [Path.within?_up, Option.bind_some] at hwithin
          rw [List.length_append, List.length_singleton]
          exact ⟨Nat.succ_pos _, ih hrest hothers hwithin⟩
      · rw [Path.within?_singleton ⟨hs, hup⟩, Option.bind_some] at hwithin
        have hstays := ih hrest hothers hwithin
        rwa [List.length_append, List.length_singleton] at hstays

/-- **A pattern that stays inside** as a text does so as it is read. -/
theorem stays_of_read {limit : Nat} {text : String} {pattern : Pattern}
    (h : read limit text = .ok pattern)
    (hwithin : (within? [] ((Path.names text).filter (· ≠ "**"))).isSome = true) :
    Stays 0 pattern.selectors := by
  have hsteps : ∀ s ∈ (Path.names text).filter (· ≠ "."), IsStep s := by
    intro s hs
    obtain ⟨hs, hdot⟩ := List.mem_filter.mp hs
    exact ⟨(Path.mem_names.mp hs).2, by simpa using hdot, Path.no_slash_of_mem_names hs⟩
  rw [← Path.within?_filter_dot, List.filter_comm] at hwithin
  exact stays_of_mapM hsteps (mapM_ofSegment_of_read h) hwithin

end Pattern

namespace Disk

/-- Steps that stay inside and lead to a place below at least `depth` names. -/
structure Deep (depth : Nat) (steps : List String) : Prop where
  inside : Inside steps
  names : ∃ names, within? [] steps = some names ∧ depth ≤ names.length

namespace Deep

variable {depth : Nat} {steps : List String}

theorem of_inside (h : Inside steps) : Deep 0 steps := by
  obtain ⟨names, hnames, -⟩ := h.exists_names
  exact ⟨h, names, hnames, Nat.zero_le _⟩

theorem mono (h : Deep depth steps) {less : Nat} (hle : less ≤ depth) : Deep less steps := by
  obtain ⟨hinside, names, hnames, hlength⟩ := h
  exact ⟨hinside, names, hnames, hle.trans hlength⟩

theorem append_name (h : Deep depth steps) {n : String} (hn : IsName n) :
    Deep (depth + 1) (steps ++ [n]) := by
  obtain ⟨hinside, names, hnames, hlength⟩ := h
  refine ⟨hinside.append_name hn, names ++ [n], ?_, ?_⟩
  · rw [Path.within?_append, hnames, Option.bind_some, Path.within?_singleton hn]
  · rw [List.length_append, List.length_singleton]
    exact Nat.succ_le_succ hlength

/-- Below some name there is a way up. -/
private theorem append_up (h : Deep depth steps) (hpos : 0 < depth) :
    Deep (depth - 1) (steps ++ [".."]) := by
  obtain ⟨hinside, names, hnames, hlength⟩ := h
  rcases List.eq_nil_or_concat' names with rfl | ⟨init, last, rfl⟩
  · exact absurd hlength (by simp only [List.length_nil]; omega)
  · have hup : within? [] (steps ++ [".."]) = some init := by
      rw [Path.within?_append, hnames, Option.bind_some, Path.within?_up]
    have hstep : IsStep ".." := ⟨by decide, by decide, by decide⟩
    refine ⟨⟨Path.isStep_append_singleton hinside.isStep hstep, by rw [hup]; rfl⟩, init, hup, ?_⟩
    rw [List.length_append, List.length_singleton] at hlength
    omega

end Deep

/-! ### Finds that correspond -/

/-- What is found after a look-up, of which a fault is a find. -/
def Find.after {α : Type} (x : Except Fault α) (next : α → List Find) : List Find :=
  match x with
  | .ok a => next a
  | .error e => [.fault e]

/-- Two selections come upon corresponding paths, up to the first fault. -/
inductive Finds (f f' : Folder) (depth : Nat) : List Find → List Find → Prop
  | nil : Finds f f' depth [] []
  | path {steps : List String} (hsteps : Deep depth steps) {finds finds' : List Find}
      (h : Finds f f' depth finds finds') :
      Finds f f' depth (.path (f.path steps) :: finds) (.path (f'.path steps) :: finds')
  | fault (fault fault' : Fault) (finds finds' : List Find) :
      Finds f f' depth (.fault fault :: finds) (.fault fault' :: finds')
  | left {fault : Fault} (h : fault.IsTooLong) (finds finds' : List Find) :
      Finds f f' depth (.fault fault :: finds) finds'
  | right {fault : Fault} (h : fault.IsTooLong) (finds finds' : List Find) :
      Finds f f' depth finds (.fault fault :: finds')

namespace Finds

variable {f f' : Folder} {depth : Nat} {finds finds' : List Find}

/-- One corresponding path. -/
theorem single {steps : List String} (hsteps : Deep depth steps) :
    Finds f f' depth [.path (f.path steps)] [.path (f'.path steps)] :=
  .path hsteps .nil

theorem mono (h : Finds f f' depth finds finds') {less : Nat} (hle : less ≤ depth) :
    Finds f f' less finds finds' := by
  induction h with
  | nil => exact .nil
  | path hsteps _ ih => exact .path (hsteps.mono hle) ih
  | fault fault fault' finds finds' => exact .fault _ _ _ _
  | left h finds finds' => exact .left h _ _
  | right h finds finds' => exact .right h _ _

theorem append (h : Finds f f' depth finds finds') {more more' : List Find}
    (hmore : Finds f f' depth more more') :
    Finds f f' depth (finds ++ more) (finds' ++ more') := by
  induction h with
  | nil => exact hmore
  | path hsteps _ ih => exact .path hsteps ih
  | fault fault fault' finds finds' => exact .fault _ _ _ _
  | left h finds finds' => exact .left h _ _
  | right h finds finds' => exact .right h _ _

/-- **Going on** from corresponding paths. -/
theorem flatMap_andThen (h : Finds f f' depth finds finds') {depth' : Nat}
    {next next' : String → List Find}
    (hnext : ∀ steps, Deep depth steps →
      Finds f f' depth' (next (f.path steps)) (next' (f'.path steps))) :
    Finds f f' depth' (finds.flatMap (Find.andThen next))
      (finds'.flatMap (Find.andThen next')) := by
  induction h with
  | nil => exact .nil
  | path hsteps _ ih => exact (hnext _ hsteps).append ih
  | fault fault fault' finds finds' => exact .fault _ _ _ _
  | left h finds finds' => exact .left h _ _
  | right h finds finds' => exact .right h _ _

/-- **Going on from a look-up** that comes out alike; a fault of it is a find. -/
theorem of_alike {α : Type} {x y : Except Fault α} (h : Alike Fault.IsTooLong Eq x y)
    {next next' : α → List Find} (hnext : ∀ a, x = .ok a → Finds f f' depth (next a) (next' a)) :
    Finds f f' depth (Find.after x next) (Find.after y next') := by
  cases h with
  | ok h => exact h ▸ hnext _ rfl
  | error e e' => exact .fault _ _ _ _
  | left h y => exact .left h _ _
  | right x h => exact .right h _ _

/-- Of corresponding finds those are left out that are one path. -/
private theorem filter_ne (h : Finds f f' depth finds finds') {steps : List String}
    (hsteps : ∀ s ∈ steps, IsStep s) :
    Finds f f' depth (finds.filter fun find => !find == .path (f.path steps))
      (finds'.filter fun find => !find == .path (f'.path steps)) := by
  induction h with
  | nil => exact .nil
  | @path other hother finds finds' _ ih =>
    have hiff (f : Folder) : (!Find.path (f.path other) == Find.path (f.path steps)) =
        !decide (other = steps) := by
      rw [Bool.not_inj_iff, Bool.eq_iff_iff, beq_iff_eq, decide_eq_true_eq, Find.path.injEq]
      exact Path.Folder.path_inj hother.inside.isStep hsteps
    rw [List.filter_cons, List.filter_cons, hiff f, hiff f']
    split_ifs
    · exact .path hother ih
    · exact ih
  | fault fault fault' finds finds' => exact .fault _ _ _ _
  | left h finds finds' => exact .left h _ _
  | right h finds finds' => exact .right h _ _

/-- Finds correspond without those that come again. -/
theorem eraseDups (h : Finds f f' depth finds finds') :
    Finds f f' depth finds.eraseDups finds'.eraseDups := by
  -- each path is struck out from what comes after it, so the induction is on the length
  induction hlength : finds.length using Nat.strong_induction_on generalizing finds finds' with
  | _ length ih =>
    cases h with
    | nil => exact .nil
    | path hsteps hrest =>
      rw [List.eraseDups_cons, List.eraseDups_cons]
      refine .path hsteps (ih _ ?_ (hrest.filter_ne hsteps.inside.isStep) rfl)
      rw [← hlength, List.length_cons]
      exact Nat.lt_succ_of_le (List.length_filter_le _ _)
    | fault fault fault' finds finds' =>
      rw [List.eraseDups_cons, List.eraseDups_cons]
      exact .fault _ _ _ _
    | left h finds finds' =>
      rw [List.eraseDups_cons]
      exact .left h _ _
    | right h finds finds' =>
      rw [List.eraseDups_cons]
      exact .right h _ _

end Finds

/-! ### Folders below a folder -/

section Search

variable {d d' : Disk} {f f' : Folder} {steps : List String}

theorem child_path (hsteps : ∀ s ∈ steps, IsStep s) {s : String} (hs : IsStep s) (f : Folder) :
    child (f.path steps) s = f.path (steps ++ [s]) := by
  rw [Folder.path, child_spell f.isRoot (Folder.isStep_append hsteps) hs, List.append_assoc,
    Folder.path]

section Equations

variable (d) (p name : String)

private theorem foldersAt_link_eq_after (cause : Cause) (room : Nat) (target : String) :
    foldersAt d cause room p name (.link target) =
      Find.after (d.entryIsFolder p name (.link target)) fun _ => [] := by
  rw [foldersAt_link]
  cases d.entryIsFolder p name (.link target) <;> rfl

private theorem foldersFrom_eq_after (cause : Cause) : d.foldersFrom cause p =
    .path p :: Find.after (d.entriesAt p) (foldersAmong d cause d.limits.search p) := by
  rw [foldersFrom]
  cases d.entriesAt p <;> rfl

private theorem acceptedEntry_eq_after (tokens : List Wildcard.Token) (foldersOnly : Bool)
    (item : Item) : d.acceptedEntry tokens foldersOnly p (name, item) =
      Find.after (if foldersOnly then d.entryIsFolder p name item else .ok true) fun fits =>
        if fits && Wildcard.accepts tokens (Text.symbols name) then [.path (child p name)]
        else [] := by
  rw [acceptedEntry]
  cases (if foldersOnly = true then d.entryIsFolder p name item else .ok true) <;> rfl

private theorem accepted_eq_after (tokens : List Wildcard.Token) (foldersOnly : Bool) :
    d.accepted tokens foldersOnly p =
      Find.after (d.entriesAt p) fun entries =>
        entries.flatMap (d.acceptedEntry tokens foldersOnly p) := by
  rw [accepted]
  cases d.entriesAt p <;> rfl

private theorem select_exact_eq_after (foldersOnly : Bool) (rest : List Pattern.Selector) :
    d.select foldersOnly (.exact name :: rest) p =
      Find.after (d.probe (child p name)) fun
        | none => []
        | some item =>
          if (foldersOnly || !rest.isEmpty) && !item.isFolder then []
          else d.select foldersOnly rest (child p name) := by
  rw [select_exact]
  cases d.probe (child p name) with
  | error e => rfl
  | ok found => cases found <;> rfl

end Equations

/-- Whether an entry is a folder comes out alike. -/
private theorem Copies.alike_entryIsFolder (h : d.Copies f d' f') (hsteps : Inside steps)
    {name : String}
    (hname : IsName name) (item : Item) :
    Alike Fault.IsTooLong Eq (d.entryIsFolder (f.path steps) name item)
      (d'.entryIsFolder (f'.path steps) name item) := by
  cases item with
  | file _ => exact .ok rfl
  | folder _ => exact .ok rfl
  | link _ =>
    rw [entryIsFolder, entryIsFolder, Folder.join_path hsteps.isStep hname.toIsStep,
      Folder.join_path hsteps.isStep hname.toIsStep]
    exact (h.alike_probe (hsteps.append_name hname)).map fun _ _ heq => by rw [heq]

-- the induction is over the tree of items, as the definitions are

mutual

private theorem Copies.finds_foldersAt (h : d.Copies f d' f') (cause : Cause) :
    ∀ (item : Item) {room depth : Nat} {steps : List String} {name : String},
      Deep depth steps → IsName name → item.wellNamed = true →
      Finds f f' depth (foldersAt d cause room (f.path steps) name item)
        (foldersAt d' cause room (f'.path steps) name item)
  | .file _, _, _, _, _, _, _, _ => .nil
  | .link target, _, _, steps, name, hsteps, hname, _ => by
    rw [foldersAt_link_eq_after, foldersAt_link_eq_after]
    exact .of_alike (h.alike_entryIsFolder hsteps.inside hname (.link target)) fun _ _ => .nil
  | .folder _, 0, _, _, _, _, _, _ => .fault _ _ _ _
  | .folder entries, room + 1, depth, steps, name, hsteps, hname, hitem => by
    have hbelow := hsteps.append_name hname
    rw [foldersAt_folder, foldersAt_folder, child_path hsteps.inside.isStep hname.toIsStep,
      child_path hsteps.inside.isStep hname.toIsStep]
    refine .path (hbelow.mono (Nat.le_succ depth)) ?_
    rw [Item.wellNamed] at hitem
    split_ifs
    · exact .fault _ _ _ _
    · exact .left (Fault.isTooLong_mk _) _ _
    · exact .right (Fault.isTooLong_mk _) _ _
    · exact (h.finds_foldersAmong cause entries hbelow hitem).mono (Nat.le_succ depth)

private theorem Copies.finds_foldersAmong (h : d.Copies f d' f') (cause : Cause) :
    ∀ (entries : List (String × Item)) {room depth : Nat} {steps : List String},
      Deep depth steps → Item.wellNamedIn entries = true →
      Finds f f' depth (foldersAmong d cause room (f.path steps) entries)
        (foldersAmong d' cause room (f'.path steps) entries)
  | [], _, _, _, _, _ => .nil
  | (name, item) :: rest, _, _, _, hsteps, hentries => by
    obtain ⟨hname, hitem, hrest⟩ := Item.wellNamedIn_cons_iff.mp hentries
    rw [foldersAmong_cons, foldersAmong_cons]
    exact (h.finds_foldersAt cause item hsteps hname hitem).append
      (h.finds_foldersAmong cause rest hsteps hrest)

end

variable (h : d.Copies f d' f') (hd : d.WellNamed) {depth : Nat}

include h hd

private theorem Copies.finds_foldersFrom (cause : Cause) (hsteps : Deep depth steps) :
    Finds f f' depth (d.foldersFrom cause (f.path steps))
      (d'.foldersFrom cause (f'.path steps)) := by
  rw [foldersFrom_eq_after, foldersFrom_eq_after, h.limits]
  refine .path hsteps ?_
  exact .of_alike (h.alike_entriesAt hsteps.inside) fun entries hentries =>
    h.finds_foldersAmong cause entries hsteps (wellNamedIn_of_entriesAt hd hentries)

/-! ### Entries that a wildcard accepts -/

omit hd in
private theorem Copies.finds_acceptedEntry (hsteps : Deep depth steps)
    (tokens : List Wildcard.Token)
    (foldersOnly : Bool) {name : String} (hname : IsName name) (item : Item) :
    Finds f f' (depth + 1) (d.acceptedEntry tokens foldersOnly (f.path steps) (name, item))
      (d'.acceptedEntry tokens foldersOnly (f'.path steps) (name, item)) := by
  have hfits : Alike Fault.IsTooLong Eq
      (if foldersOnly then d.entryIsFolder (f.path steps) name item else .ok true)
      (if foldersOnly then d'.entryIsFolder (f'.path steps) name item else .ok true) := by
    split_ifs
    · exact h.alike_entryIsFolder hsteps.inside hname item
    · exact .ok rfl
  rw [acceptedEntry_eq_after, acceptedEntry_eq_after]
  refine .of_alike hfits fun fits _ => ?_
  split_ifs
  · rw [child_path hsteps.inside.isStep hname.toIsStep,
      child_path hsteps.inside.isStep hname.toIsStep]
    exact .single (hsteps.append_name hname)
  · exact .nil

private theorem Copies.finds_accepted (hsteps : Deep depth steps) (tokens : List Wildcard.Token)
    (foldersOnly : Bool) :
    Finds f f' (depth + 1) (d.accepted tokens foldersOnly (f.path steps))
      (d'.accepted tokens foldersOnly (f'.path steps)) := by
  rw [accepted_eq_after, accepted_eq_after]
  refine .of_alike (h.alike_entriesAt hsteps.inside) fun entries hentries => ?_
  have hnames := Item.wellNamedIn_iff.mp (wellNamedIn_of_entriesAt hd hentries)
  clear hentries
  induction entries with
  | nil => exact .nil
  | cons entry rest ih =>
    obtain ⟨hentry, hrest⟩ := List.forall_mem_cons.mp hnames
    rw [List.flatMap_cons, List.flatMap_cons]
    exact (h.finds_acceptedEntry hsteps tokens foldersOnly hentry.1 entry.2).append (ih hrest)

/-! ### Selecting -/

/-- **What selectors find** from corresponding paths corresponds. -/
theorem Copies.finds_select {selectors : List Pattern.Selector}
    (hexact : ∀ name, .exact name ∈ selectors → IsStep name)
    (hstays : Pattern.Stays depth selectors) (foldersOnly : Bool) (hsteps : Deep depth steps) :
    Finds f f' 0 (d.select foldersOnly selectors (f.path steps))
      (d'.select foldersOnly selectors (f'.path steps)) := by
  induction selectors generalizing depth steps with
  | nil =>
    rw [select_nil, select_nil]
    exact .single (hsteps.mono (Nat.zero_le depth))
  | cons selector rest ih =>
    have hrest : ∀ name, .exact name ∈ rest → IsStep name :=
      fun name hname => hexact name (List.mem_cons_of_mem _ hname)
    cases selector with
    | exact name =>
      have hname : IsStep name := hexact name List.mem_cons_self
      obtain ⟨depth', hbelow, hstays⟩ : ∃ depth', Deep depth' (steps ++ [name]) ∧
          Pattern.Stays depth' rest := by
        rw [Pattern.Stays] at hstays
        split_ifs at hstays with hup
        · exact ⟨depth - 1, hup ▸ hsteps.append_up hstays.1, hstays.2⟩
        · exact ⟨depth + 1, hsteps.append_name ⟨hname, hup⟩, hstays⟩
      rw [select_exact_eq_after, select_exact_eq_after, child_path hsteps.inside.isStep hname,
        child_path hsteps.inside.isStep hname]
      refine .of_alike (h.alike_probe hbelow.inside) fun found _ => ?_
      cases found with
      | none => exact .nil
      | some item =>
        dsimp only
        split_ifs
        · exact .nil
        · exact ih hrest hstays hbelow
    | wild tokens =>
      rw [select_wild, select_wild]
      exact (h.finds_accepted hd hsteps tokens _).flatMap_andThen
        fun steps hsteps => ih hrest hstays hsteps
    | deep =>
      rw [select_deep, select_deep]
      exact ((h.finds_foldersFrom hd _ hsteps).flatMap_andThen
        fun steps hsteps => ih hrest hstays hsteps).eraseDups

/-! ### Files -/

omit hd in
/-- **The files among corresponding finds** correspond. -/
theorem Copies.alike_filesAmong {finds finds' : List Find}
    (hfinds : Finds f f' depth finds finds') :
    Alike Fault.IsTooLong (Listed f f') (d.filesAmong finds) (d'.filesAmong finds') := by
  induction hfinds with
  | nil => exact .ok .nil
  | @path steps hsteps finds finds' _ ih =>
    rw [filesAmong_path, filesAmong_path]
    refine (h.alike_probe hsteps.inside).bind fun found _ hfound heq => ?_
    subst heq
    refine ih.bind fun others others' _ hothers => ?_
    refine .ok ?_
    split_ifs with hfile
    · exact hothers.cons hsteps.inside (h.ne_nil_of_probe hfound hfile)
    · exact hothers
  | fault fault fault' finds finds' => exact .error _ _
  | left h finds finds' => exact .left h _
  | right h finds finds' => exact .right _ h

/-- **A pattern** that stays inside finds corresponding files. -/
theorem Copies.alike_glob {limit : Nat} {text : String} {pattern : Pattern}
    (hread : Pattern.read limit text = .ok pattern)
    (hwithin : (within? [] ((Path.names text).filter (· ≠ "**"))).isSome = true) :
    Alike Fault.IsTooLong (Listed f f') (d.glob (f.path []) pattern)
      (d'.glob (f'.path []) pattern) := by
  have hprobe {d : Disk} {p : String} {entries : List (String × Item)}
      (hfind : d.find p = .ok (.folder entries)) : d.probe p = .ok (some (.folder entries)) := by
    rw [probe, hfind]
  obtain ⟨entries, hleft, hright⟩ := h.exists_entries
  rw [glob, glob, Folder.tidy_path (by simp), Folder.tidy_path (by simp), hprobe hleft,
    hprobe hright]
  exact h.alike_filesAmong (h.finds_select hd (Pattern.exact_mem_of_read hread).1
    (Pattern.stays_of_read hread hwithin) pattern.foldersOnly (.of_inside .nil))

end Search

end Disk

end ApiOutline
