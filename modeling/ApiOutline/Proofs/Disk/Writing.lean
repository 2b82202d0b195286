import ApiOutline.Disk.Change
import ApiOutline.Proofs.Disk.Walks
import ApiOutline.Proofs.Outcome

/-!
# Reading what was written

A file that is written is read at the same path afterwards (`read_of_write`). The path may lead
through links and back up through folders, and the walk that reads it goes through the changed
disk, so the two walks are followed side by side (`Follows`): they stand at the ends of the same way
of names, where the disk from before and the changed one hold items that are alike, until the end of
the way is the one that was written.
-/

namespace ApiOutline

/-! ### Ways below an item -/

namespace Item

/-- What stands at the end of a way of names below an item. -/
def at? : Item → List String → Option Item
  | item, [] => some item
  | .folder entries, name :: rest => (entries.lookup name).bind fun item => item.at? rest
  | _, _ :: _ => none

theorem at?_append (item : Item) (names more : List String) :
    item.at? (names ++ more) = (item.at? names).bind fun item => item.at? more := by
  induction names generalizing item with
  | nil => rfl
  | cons name rest ih =>
    cases item with
    | folder entries =>
      rw [List.cons_append, at?, at?, Option.bind_assoc]
      exact congrArg _ (funext fun item => ih item)
    | _ => rfl

/-- A file can be written at the end of a way: a file stands there, or nothing in a folder. -/
def TakesFile : Item → List String → Prop
  | item, [] => item.isFile = true
  | .folder entries, name :: rest =>
    match entries.lookup name with
    | some item => item.TakesFile rest
    | none => rest = []
  | _, _ :: _ => False

private theorem exists_file_of_isFile {item : Item} (h : item.isFile = true) :
    ∃ contents, item = .file contents := by
  cases item with
  | file contents => exact ⟨contents, rfl⟩
  | _ => cases h

theorem TakesFile.append {item below : Item} {names more : List String}
    (h : item.at? names = some below) (hmore : below.TakesFile more) :
    item.TakesFile (names ++ more) := by
  induction names generalizing item with
  | nil =>
    obtain rfl := Option.some.inj h
    exact hmore
  | cons name rest ih =>
    cases item with
    | folder entries =>
      obtain ⟨next, hnext, hbelow⟩ := Option.bind_eq_some_iff.mp h
      rw [List.cons_append, TakesFile, hnext]
      exact ih hbelow
    | _ => cases h

theorem TakesFile.isFile {item below : Item} {names : List String} (h : item.TakesFile names)
    (hbelow : item.at? names = some below) : below.isFile = true := by
  induction names generalizing item with
  | nil =>
    obtain rfl := Option.some.inj hbelow
    exact h
  | cons name rest ih =>
    cases item with
    | folder entries =>
      obtain ⟨next, hnext, hbelow⟩ := Option.bind_eq_some_iff.mp hbelow
      rw [TakesFile, hnext] at h
      exact ih h hbelow
    | _ => cases hbelow

/-- Replacing what stands under one name. -/
private theorem lookup_replace (entries : List (String × Item)) (name : String) (below : Item)
    (other : String) :
    (entries.map fun entry => if entry.1 == name then (name, below) else entry).lookup other =
      if other = name then (entries.lookup name).map fun _ => below else entries.lookup other := by
  induction entries with
  | nil => simp
  | cons entry rest ih =>
    obtain ⟨first, item⟩ := entry
    simp only [beq_iff_eq] at ih ⊢
    rw [List.map_cons]
    by_cases hother : other = name
    · rw [if_pos hother] at ih ⊢
      by_cases hfirst : first = name
      · simp [hfirst, hother]
      · have hne : (name == first) = false := beq_eq_false_iff_ne.mpr (Ne.symm hfirst)
        rw [hother] at ih ⊢
        simp [hfirst, List.lookup_cons, hne, ih]
    · rw [if_neg hother] at ih ⊢
      by_cases hfirst : first = name
      · have hne : (other == name) = false := beq_eq_false_iff_ne.mpr hother
        simp [hfirst, List.lookup_cons, hne, ih]
      · simp [hfirst, List.lookup_cons, ih]

/-- The entries of a folder after an item is put at or below a name. -/
private theorem putAt_folder (new : Item) (name : String) (rest : List String)
    (entries : List (String × Item)) : ∃ entries', putAt new (name :: rest) (.folder entries) =
      .folder entries' ∧ ∀ other, entries'.lookup other =
        if other = name then some (putAt new rest ((entries.lookup name).getD (.folder [])))
        else entries.lookup other := by
  rw [putAt]
  generalize putAt new rest ((entries.lookup name).getD (.folder [])) = below
  split_ifs with hsome
  · refine ⟨_, rfl, fun other => ?_⟩
    obtain ⟨item, hitem⟩ := Option.isSome_iff_exists.mp hsome
    rw [lookup_replace, hitem, Option.map_some]
  · refine ⟨_, rfl, fun other => ?_⟩
    have hnone := Option.not_isSome_iff_eq_none.mp hsome
    rw [List.lookup_append, List.lookup_cons]
    split_ifs with hother
    · rw [hother, hnone, beq_self_eq_true]
      rfl
    · rw [beq_eq_false_iff_ne.mpr hother, List.lookup_nil, Option.or_none]

private theorem at?_putAt_self (new : Item) (names : List String) {item : Item}
    (h : item.TakesFile names) : (putAt new names item).at? names = some new := by
  induction names generalizing item with
  | nil => cases item <;> rfl
  | cons name rest ih =>
    cases item with
    | folder entries =>
      obtain ⟨entries', hput, hlookup⟩ := putAt_folder new name rest entries
      rw [hput, at?, hlookup, if_pos rfl, Option.bind_some]
      rw [TakesFile] at h
      cases hbelow : entries.lookup name with
      | some below =>
        rw [hbelow] at h
        exact ih h
      | none =>
        rw [hbelow] at h
        rw [h]
        rfl
    | _ => cases h

/-- Two items are the same to a walk: both are folders, or they are one. -/
def Alike (item item' : Item) : Prop :=
  item' = item ∨ item.isFolder = true ∧ item'.isFolder = true

/-- What stands elsewhere is as before, but that folders may hold other things. -/
private theorem exists_at?_putAt (new : Item) {target : List String} {item : Item}
    (h : item.TakesFile target) {names : List String} {below : Item}
    (hbelow : item.at? names = some below) (hne : names ≠ target) :
    ∃ below', (putAt new target item).at? names = some below' ∧ below.Alike below' := by
  induction target generalizing item names with
  | nil =>
    -- nothing stands below a file
    cases item with
    | file contents =>
      cases names with
      | nil => exact absurd rfl hne
      | cons name rest => cases hbelow
    | _ => cases h
  | cons name rest ih =>
    cases item with
    | folder entries =>
      obtain ⟨entries', hput, hlookup⟩ := putAt_folder new name rest entries
      rw [hput]
      cases names with
      | nil =>
        obtain rfl := Option.some.inj hbelow
        exact ⟨_, rfl, .inr ⟨rfl, rfl⟩⟩
      | cons other more =>
        obtain ⟨next, hnext, hbelow⟩ := Option.bind_eq_some_iff.mp hbelow
        rw [at?, hlookup]
        by_cases hother : other = name
        · rw [hother] at hnext hne
          rw [TakesFile, hnext] at h
          rw [if_pos hother, hnext, Option.getD_some, Option.bind_some]
          exact ih h hbelow fun heq => hne (congrArg _ heq)
        · rw [if_neg hother, hnext, Option.bind_some]
          exact ⟨below, hbelow, .inl rfl⟩
    | _ => cases h

end Item

namespace Disk

/-! ### Places on the tree -/

/-- An item stands in a folder with such entries above it, up to the root. -/
def Stands (root : Item) : List (String × List (String × Item)) → Item → Prop
  | [], item => item = root
  | (segment, entries) :: above, item =>
    entries.lookup (canonical segment) = some item ∧ Stands root above (.folder entries)

theorem Stands.at? {root item : Item} {above : List (String × List (String × Item))}
    (h : Stands root above item) :
    root.at? ((above.map Prod.fst).reverse.map canonical) = some item := by
  induction above generalizing item with
  | nil =>
    rw [Stands] at h
    rw [h]
    cases root <;> rfl
  | cons step above ih =>
    obtain ⟨segment, entries⟩ := step
    obtain ⟨hlookup, habove⟩ := h
    rw [List.map_cons, List.reverse_cons, List.map_append, Item.at?_append, ih habove,
      Option.bind_some]
    change (entries.lookup (canonical segment)).bind _ = _
    rw [hlookup]
    cases item <;> rfl

/-- A place on the tree below a root that is no link. -/
structure Place.StandsIn (root : Item) (here : Place) : Prop where
  stands : Stands root here.above here.item
  ne_link : ∀ target, here.item ≠ .link target

theorem Place.StandsIn.up {root : Item} {here : Place} (h : here.StandsIn root) :
    here.up.StandsIn root := by
  rw [Place.up]
  split
  · exact h
  · next segment entries above habove =>
    have hstands := h.stands
    rw [habove] at hstands
    exact ⟨hstands.2, nofun⟩

theorem Place.StandsIn.enter {root : Item} {here : Place} (h : here.StandsIn root)
    {entries : List (String × Item)} (hentries : here.item = .folder entries) {segment : String}
    {item : Item} (hlookup : entries.lookup (canonical segment) = some item)
    (hlink : ∀ target, item ≠ .link target) :
    Place.StandsIn root ⟨item, (segment, entries) :: here.above⟩ :=
  ⟨⟨hlookup, hentries ▸ h.stands⟩, hlink⟩

/-- Where a file is written that a path leads to. -/
def Goal.way : Goal → List String
  | .there place => place.way
  | .gap folder segment => folder.way ++ [segment]

theorem Place.StandsIn.kept (root : Item) : Place.Kept .write (Place.StandsIn root) where
  up := Place.StandsIn.up
  enter h hentries hlookup hlink := h.enter hentries hlookup (hlink nofun)

private theorem standsIn_root (d : Disk) : d.root.StandsIn d.root.item :=
  ⟨rfl, nofun⟩

/-- A file can be written where a path leads, unless a folder is there. -/
private theorem Goal.takesFile {root : Item} {g : Goal} (h : g.Holds (Place.StandsIn root))
    (hfolder : ∀ place, g = .there place → place.item.isFolder = false) :
    root.TakesFile (g.way.map canonical) := by
  cases g with
  | there place =>
    have hfile : place.item.TakesFile [] := by
      have hlink := h.ne_link
      have hfolder := hfolder place rfl
      cases hitem : place.item with
      | file contents => rfl
      | folder entries =>
        rw [hitem] at hfolder
        cases hfolder
      | link target => exact absurd hitem (hlink target)
    have htakes := Item.TakesFile.append h.stands.at? hfile
    rwa [List.append_nil] at htakes
  | gap folder segment =>
    obtain ⟨hstands, entries, hentries, hlookup⟩ := h
    have hgap : folder.item.TakesFile [canonical segment] := by
      rw [hentries, Item.TakesFile, hlookup]
    rw [Goal.way, List.map_append]
    exact Item.TakesFile.append hstands.stands.at? hgap

/-! ### The two walks -/

section

variable {root : Item} {target : List String} {file : File} {here here' : Place}

/-- A place on the changed tree is where a place on the one from before was. -/
structure Follows (root : Item) (target : List String) (file : File) (here here' : Place) :
    Prop where
  old : Stands root here.above here.item
  new : Stands (Item.putAt (.file file) target root) here'.above here'.item
  above : here'.above.map Prod.fst = here.above.map Prod.fst

/-- The names on the way to a place. -/
def Place.names (here : Place) : List String :=
  here.way.map canonical

private theorem Follows.at?_new (h : Follows root target file here here') :
    (Item.putAt (.file file) target root).at? here.names = some here'.item := by
  have hnew := h.new.at?
  rwa [h.above] at hnew

theorem Follows.up (h : Follows root target file here here') :
    Follows root target file here.up here'.up := by
  obtain ⟨item, above⟩ := here
  obtain ⟨item', above'⟩ := here'
  obtain ⟨hold, hnew, habove⟩ := h
  cases above with
  | nil =>
    cases above' with
    | nil => exact ⟨hold, hnew, habove⟩
    | cons step' above' => cases habove
  | cons step above =>
    cases above' with
    | nil => cases habove
    | cons step' above' => exact ⟨hold.2, hnew.2, (List.cons.inj habove).2⟩

/-- A folder is followed by a folder. -/
theorem Follows.exists_entries (h : Follows root target file here here')
    (htakes : root.TakesFile target) {entries : List (String × Item)}
    (hentries : here.item = .folder entries) : ∃ entries', here'.item = .folder entries' := by
  have hitem : root.at? here.names = some (.folder entries) := hentries ▸ h.old.at?
  have hne : here.names ≠ target := by
    rintro rfl
    cases htakes.isFile hitem
  obtain ⟨item', hitem', hlike⟩ := Item.exists_at?_putAt (.file file) htakes hitem hne
  obtain rfl := Option.some.inj (hitem'.symm.trans h.at?_new)
  rcases hlike with heq | ⟨-, hfolder⟩
  · exact ⟨entries, heq⟩
  · cases hother : here'.item with
    | folder entries' => exact ⟨entries', rfl⟩
    | _ =>
      rw [hother] at hfolder
      cases hfolder

private theorem Place.at?_enter {root : Item} {here : Place}
    (hstands : Stands root here.above here.item) {entries : List (String × Item)}
    (hentries : here.item = .folder entries) (name : String) :
    root.at? (here.names ++ [name]) = entries.lookup name := by
  rw [Item.at?_append, Place.names, Place.way, hstands.at?, Option.bind_some, hentries, Item.at?]
  cases entries.lookup name with
  | none => rfl
  | some item => cases item <;> rfl

/-- The entries of the two folders are alike, but for the one that was written. -/
theorem Follows.lookup (h : Follows root target file here here') (htakes : root.TakesFile target)
    {entries entries' : List (String × Item)} (hentries : here.item = .folder entries)
    (hentries' : here'.item = .folder entries') (name : String) :
    (here.names ++ [name] = target → entries'.lookup name = some (.file file)) ∧
      ∀ item, entries.lookup name = some item → here.names ++ [name] ≠ target →
        ∃ item', entries'.lookup name = some item' ∧ item.Alike item' := by
  have hnames : here'.names = here.names := by rw [Place.names, Place.way, h.above]; rfl
  have hold := Place.at?_enter h.old hentries name
  have hnew := Place.at?_enter h.new hentries' name
  rw [hnames] at hnew
  refine ⟨fun heq => ?_, fun item hitem hne => ?_⟩
  · rw [← hnew, heq, Item.at?_putAt_self _ _ htakes]
  · rw [← hnew]
    exact Item.exists_at?_putAt (.file file) htakes (hold.trans hitem) hne

theorem Follows.enter (h : Follows root target file here here')
    {entries entries' : List (String × Item)} (hentries : here.item = .folder entries)
    (hentries' : here'.item = .folder entries') {segment : String} {item item' : Item}
    (hlookup : entries.lookup (canonical segment) = some item)
    (hlookup' : entries'.lookup (canonical segment) = some item') :
    Follows root target file ⟨item, (segment, entries) :: here.above⟩
      ⟨item', (segment, entries') :: here'.above⟩ :=
  ⟨⟨hlookup, hentries ▸ h.old⟩, ⟨hlookup', hentries' ▸ h.new⟩, congrArg (segment :: ·) h.above⟩

/-- What the walk that looks comes to where the walk that wrote came to its goal, which is the
file, or to a link, which is the same one. -/
def Seen (root : Item) (target : List String) (file : File) (looked : Except Cause Stretch) :
    Stretch → Prop
  | .goal _ => ∃ place, looked = .ok (.goal (.there place)) ∧ place.item = .file file
  | .link folder path rest =>
    ∃ folder', looked = .ok (.link folder' path rest) ∧ Follows root target file folder folder'

/-- **The walk that looks** goes along the walk that wrote, to what was written. -/
theorem seen_of_walk (h : Follows root target file here here')
    (htakes : root.TakesFile target) {segments : List String} {stretch : Stretch}
    (hwalk : walk .write here segments = .ok stretch)
    (hgoal : ∀ g, stretch = .goal g → g.way.map canonical = target) :
    Seen root target file (walk .look here' segments) stretch := by
  induction segments generalizing here here' with
  | nil =>
    obtain rfl := Except.ok.inj hwalk
    have hitem := h.at?_new
    have hway : here.names = target := hgoal _ rfl
    rw [hway, Item.at?_putAt_self _ _ htakes] at hitem
    exact ⟨here', rfl, (Option.some.inj hitem).symm⟩
  | cons segment rest ih =>
    obtain ⟨entries, hentries, hadvance⟩ := exists_advance hwalk
    obtain ⟨entries', hentries'⟩ := h.exists_entries htakes hentries
    obtain ⟨hwritten, halike⟩ := h.lookup htakes hentries hentries' (canonical segment)
    have hat := Place.at?_enter h.old hentries (canonical segment)
    cases hadvance with
    | skip hskip hrest =>
      rw [walk_of_isSkipped hentries' hskip]
      exact ih h hrest
    | up hup hrest =>
      rw [walk_of_up hentries' hup]
      exact ih h.up hrest
    | gap hname hlookup hrest =>
      -- the gap is filled now
      have hway := hgoal _ rfl
      rw [Goal.way, List.map_append] at hway
      rw [walk_look_of_isLookedFor hentries' hname, hwritten hway, hrest]
      exact ⟨_, rfl, rfl⟩
    | last hpurpose _ _ => cases hpurpose
    | link hname hlookup =>
      -- the link is there still
      have hne : here.names ++ [canonical segment] ≠ target := by
        intro heq
        rw [heq, hlookup] at hat
        cases htakes.isFile hat
      obtain ⟨item', hlookup', rfl | ⟨hfolder, -⟩⟩ := halike _ hlookup hne
      · rw [walk_look_of_isLookedFor hentries' hname, hlookup']
        exact ⟨here', rfl, h⟩
      · cases hfolder
    | @enter item _ hname hlookup hlink hrest =>
      by_cases hway : here.names ++ [canonical segment] = target
      · -- the file itself, which the walk does not go beyond
        rw [hway, hlookup] at hat
        obtain ⟨contents, rfl⟩ := Item.exists_file_of_isFile (htakes.isFile hat)
        rw [walk_look_of_isLookedFor hentries' hname, hwritten hway]
        cases rest with
        | nil =>
          obtain rfl := Except.ok.inj hrest
          exact ⟨_, rfl, rfl⟩
        | cons next rest => cases hrest
      · obtain ⟨item', hlookup', hlike⟩ := halike item hlookup hway
        have hlink' : ∀ path, item' ≠ .link path := by
          rintro path rfl
          rcases hlike with rfl | ⟨-, hfolder⟩
          · exact hlink path rfl
          · cases hfolder
        rw [walk_look_of_lookup hentries' hname hlookup' hlink']
        exact ih (h.enter hentries hentries' hlookup hlookup') hrest

/-- **Links on the way** are followed as they were. -/
theorem travel_of_follows {d after : Disk} (hroot : d.root.item.TakesFile target)
    (hafter : after.root.item = Item.putAt (.file file) target d.root.item) {links : Nat}
    {here here' : Place} (h : Follows d.root.item target file here here') {segments : List String}
    {g : Goal} (htravel : d.travel .write links here segments = .ok g)
    (hgoal : g.way.map canonical = target) :
    ∃ place, after.travel .look links here' segments = .ok (.there place) ∧
      place.item = .file file := by
  replace htravel := travels_of_travel htravel
  induction htravel generalizing here' with
  | goal hwalk =>
    obtain ⟨place, hplace, hfile⟩ := seen_of_walk h hroot hwalk fun g' heq => by
      rwa [← Stretch.goal.inj heq]
    exact ⟨place, travel_of_goal hplace _, hfile⟩
  | @link links _ folder path _ rest hwalk _ ih =>
    obtain ⟨folder', hlink, hfolder⟩ := seen_of_walk h hroot hwalk nofun
    have hstart : Follows d.root.item target file
        (if Path.isAbsolute path then d.root else folder)
        (if Path.isAbsolute path then after.root else folder') := by
      split_ifs
      · exact ⟨rfl, hafter, rfl⟩
      · exact hfolder
    obtain ⟨place, hplace, hfile⟩ := ih hstart
    exact ⟨place, (travel_of_link hlink links).trans hplace, hfile⟩

end

/-! ### Whole disks -/

private theorem locate_of_put {d : Disk} {p : String} {g : Goal} (h : d.locate .write p = .ok g)
    (hfolder : ∀ place, g = .there place → place.item.isFolder = false) (file : File) :
    ∃ place, (d.put g.way (.file file)).locate .look p = .ok (.there place) ∧
      place.item = .file file := by
  rw [locate] at h ⊢
  split at h
  · cases h
  next hrefusal =>
  have hstands := holds_of_travel (Place.StandsIn.kept d.root.item) (standsIn_root d)
    (standsIn_root d) h
  have htakes := Goal.takesFile hstands hfolder
  obtain ⟨name, rest, htarget⟩ : ∃ name rest, g.way.map canonical = name :: rest := by
    refine List.exists_cons_of_ne_nil fun hnil => ?_
    rw [hnil] at htakes
    cases htakes
  obtain ⟨entries', hput, -⟩ := Item.putAt_folder (.file file) name rest d.entries
  rw [← htarget] at hput
  have hafter : d.put g.way (.file file) = ⟨entries', d.cwd, d.limits⟩ := by
    rw [put, hput, withRoot]
  have hroot : (root ⟨entries', d.cwd, d.limits⟩).item =
      Item.putAt (.file file) (g.way.map canonical) d.root.item := hput.symm
  have hfollows : Follows d.root.item (g.way.map canonical) file d.root
      (root ⟨entries', d.cwd, d.limits⟩) :=
    ⟨rfl, hroot, rfl⟩
  rw [hafter]
  exact travel_of_follows htakes hroot hfollows h rfl

/-- **A file that was written is read** at the path at which it was written. -/
theorem read_of_write {d after : Disk} {p : String} {file : File}
    (h : d.write p file = .ok after) : after.read p = .ok file := by
  have hread : ∀ {g : Goal}, d.locate .write p = .ok g →
      (∀ place, g = .there place → place.item.isFolder = false) →
      d.put g.way (.file file) = after → after.read p = .ok file := by
    rintro g hlocate hfolder rfl
    obtain ⟨place, hplace, hfile⟩ := locate_of_put hlocate hfolder file
    rw [read, find, hplace]
    dsimp only
    rw [hfile]
  rw [write] at h
  split at h
  · cases h
  · next hlocate => exact hread hlocate nofun (Except.ok.inj h)
  · next hlocate =>
    split_ifs at h with hfolder
    refine hread hlocate (fun place heq => ?_) (Except.ok.inj h)
    rw [← Goal.there.inj heq]
    exact eq_false_of_ne_true hfolder

end Disk

end ApiOutline
