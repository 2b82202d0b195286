import ApiOutline.Proofs.Project.Outputs
import ApiOutline.Proofs.Relocation.Config
import ApiOutline.Proofs.Relocation.Search

/-!
# Sources of copies

The sources of a package and of its copy are the same files in the same order. A walk below the two
folders comes to the same entries (`listed_foundIn`), a pattern finds the same, what is left out is
told by ways that begin at the folder, and sorting compares what comes after the folder
(`Listed.sorted`).
-/

namespace ApiOutline

open ApiOutline.Path (IsStep IsName Folder Inside within? goal?)

/-! ### Lists of paths -/

namespace Listed

variable {f f' : Folder} {paths paths' : List String}

/-- Whether a path is that of a source is told by its last step. -/
private theorem isSource_path {way : List String} (hway : Inside way) (hne : way ≠ [])
    (f f' : Folder) :
    Sources.isSource (f.path way) = Sources.isSource (f'.path way) := by
  rcases List.eq_nil_or_concat' way with rfl | ⟨init, last, rfl⟩
  · exact absurd rfl hne
  · have hslash : '/' ∉ last.toList := (hway.isStep last (by simp)).no_slash
    rw [Sources.isSource, Sources.isSource, f.extension_path init hslash,
      f'.extension_path init hslash]

/-- A test that comes out the same for corresponding paths leaves corresponding paths. -/
theorem filter (h : Listed f f' paths paths') {test test' : String → Bool}
    (htest : ∀ way, Inside way → way ≠ [] → test (f.path way) = test' (f'.path way)) :
    Listed f f' (paths.filter test) (paths'.filter test') := by
  obtain ⟨ways, hways, rfl, rfl⟩ := h
  have heq : ways.filter (test' ∘ f'.path) = ways.filter (test ∘ f.path) :=
    List.filter_congr fun way hway => (htest way (hways way hway).1 (hways way hway).2).symm
  refine ⟨ways.filter (test ∘ f.path), fun way hway => hways way (List.mem_filter.mp hway).1,
    List.filter_map, ?_⟩
  rw [List.filter_map, heq]

private theorem eraseDups_map_path {ways : List (List String)} (hways : ∀ way ∈ ways, Inside way)
    (f : Folder) : (ways.map f.path).eraseDups = ways.eraseDups.map f.path := by
  induction hlength : ways.length using Nat.strong_induction_on generalizing ways with
  | _ length ih =>
    cases ways with
    | nil => rfl
    | cons way rest =>
      obtain ⟨hway, hrest⟩ := List.forall_mem_cons.mp hways
      have hfilter : (rest.map f.path).filter (fun p => !p == f.path way) =
          (rest.filter fun other => !other == way).map f.path := by
        rw [List.filter_map]
        refine congrArg _ (List.filter_congr fun other hother => ?_)
        rw [Function.comp_apply, Bool.not_inj_iff, Bool.eq_iff_iff, beq_iff_eq, beq_iff_eq]
        exact Folder.path_inj (hrest other hother).isStep hway.isStep
      rw [List.map_cons, List.eraseDups_cons, List.eraseDups_cons, hfilter, List.map_cons]
      refine congrArg _ (ih _ ?_ (fun other hother => ?_) rfl)
      · rw [← hlength, List.length_cons]
        exact Nat.lt_succ_of_le (List.length_filter_le _ _)
      · exact hrest other (List.mem_filter.mp hother).1

theorem eraseDups (h : Listed f f' paths paths') :
    Listed f f' paths.eraseDups paths'.eraseDups := by
  obtain ⟨ways, hways, rfl, rfl⟩ := h
  have hinside : ∀ way ∈ ways, Inside way := fun way hway => (hways way hway).1
  exact ⟨ways.eraseDups, fun way hway => hways way (List.mem_eraseDups.mp hway),
    eraseDups_map_path hinside f, eraseDups_map_path hinside f'⟩

/-- **Sorting** compares what comes after the folders. -/
theorem sorted (h : Listed f f' paths paths') :
    Listed f f' (Sources.sorted paths) (Sources.sorted paths') := by
  obtain ⟨ways, hways, rfl, rfl⟩ := h
  refine ⟨ways.mergeSort fun v w => Text.precedes (f.path v) (f.path w),
    fun way hway => hways way (List.mem_mergeSort.mp hway), ?_, ?_⟩
  · refine (List.map_mergeSort ?_).symm
    exact fun v _ w _ => rfl
  · refine (List.map_mergeSort ?_).symm
    exact fun v hv w hw => Folder.precedes_path f f' (hways v hv).2 (hways w hw).2

end Listed

/-! ### Walking a folder -/

namespace Sources

variable {d d' : Disk} {f f' : Folder} {excluded : List (List String)}

private theorem enters_path (hexcluded : ∀ way ∈ excluded, ∀ n ∈ way, IsName n) {way : List String}
    (hway : ∀ n ∈ way, IsName n) (name : String) (f f' : Folder) :
    enters (excluded.map f.path) name (f.path way) =
      enters (excluded.map f'.path) name (f'.path way) := by
  have hcontains (f : Folder) : (excluded.map f.path).contains (f.path way) =
      excluded.contains way :=
    Folder.contains_map_path (fun other hother s hs => (hexcluded other hother s hs).toIsStep)
      fun s hs => (hway s hs).toIsStep
  rw [enters, enters, hcontains f, hcontains f']

-- a link is not followed by the walk, so the induction over the tree of items is enough

mutual

private theorem listed_found (h : d.Copies f d' f')
    (hexcluded : ∀ way ∈ excluded, ∀ n ∈ way, IsName n) :
    ∀ (item : Item) {way : List String} {name : String}, (∀ n ∈ way ++ [name], IsName n) →
      item.wellNamed = true → SeenAlike f f' (way ++ [name]) item.folders →
      Listed f f' (found d (excluded.map f.path) name (f.path (way ++ [name])) item)
        (found d' (excluded.map f'.path) name (f'.path (way ++ [name])) item)
  | .folder entries, way, name, hway, hitem, hseen => by
    obtain ⟨hhere, hbelow⟩ := SeenAlike.folder_iff.mp hseen
    rw [found, found, enters_path hexcluded hway name f f', hhere]
    rw [Item.wellNamed] at hitem
    split_ifs
    · exact listed_foundIn h hexcluded entries hway hitem hbelow
    · exact .nil
  | .file _, way, name, hway, _, _ => by
    rw [found, found]
    split_ifs
    · exact .cons .nil (.of_isName hway) (by simp)
    · exact .nil
  | .link _, way, name, hway, _, _ => by
    rw [found, found, h.isFolder_eq hway]
    split_ifs
    · exact .cons .nil (.of_isName hway) (by simp)
    · exact .nil

private theorem listed_foundIn (h : d.Copies f d' f')
    (hexcluded : ∀ way ∈ excluded, ∀ n ∈ way, IsName n) :
    ∀ (entries : List (String × Item)) {way : List String}, (∀ n ∈ way, IsName n) →
      Item.wellNamedIn entries = true → SeenAlike f f' way (Item.foldersIn entries) →
      Listed f f' (foundIn d (excluded.map f.path) (f.path way) entries)
        (foundIn d' (excluded.map f'.path) (f'.path way) entries)
  | [], _, _, _, _ => by
    rw [foundIn, foundIn]
    exact .nil
  | (name, item) :: rest, way, hway, hentries, hseen => by
    obtain ⟨hname, hitem, hrest⟩ := Item.wellNamedIn_cons_iff.mp hentries
    obtain ⟨hseenItem, hseenRest⟩ := SeenAlike.cons_iff.mp hseen
    have hsteps : ∀ s ∈ way, IsStep s := fun s hs => (hway s hs).toIsStep
    have hall : ∀ n ∈ way ++ [name], IsName n :=
      List.forall_mem_append.mpr ⟨hway, by simpa using hname⟩
    rw [foundIn, foundIn, Folder.join_path hsteps hname.toIsStep,
      Folder.join_path hsteps hname.toIsStep]
    exact (listed_found h hexcluded item hall hitem hseenItem).append
      (listed_foundIn h hexcluded rest hway hrest hseenRest)

end

mutual

private theorem depth_path (hexcluded : ∀ way ∈ excluded, ∀ n ∈ way, IsName n) (f f' : Folder) :
    ∀ (item : Item) {way : List String} {name : String}, (∀ n ∈ way ++ [name], IsName n) →
      item.wellNamed = true → SeenAlike f f' (way ++ [name]) item.folders →
      depth (excluded.map f.path) name (f.path (way ++ [name])) item =
        depth (excluded.map f'.path) name (f'.path (way ++ [name])) item
  | .folder entries, way, name, hway, hitem, hseen => by
    obtain ⟨hhere, hbelow⟩ := SeenAlike.folder_iff.mp hseen
    rw [Item.wellNamed] at hitem
    rw [depth, depth, enters_path hexcluded hway name f f', hhere,
      depthIn_path hexcluded f f' entries hway hitem hbelow]
  | .file _, _, _, _, _, _ => rfl
  | .link _, _, _, _, _, _ => rfl

private theorem depthIn_path (hexcluded : ∀ way ∈ excluded, ∀ n ∈ way, IsName n) (f f' : Folder) :
    ∀ (entries : List (String × Item)) {way : List String}, (∀ n ∈ way, IsName n) →
      Item.wellNamedIn entries = true → SeenAlike f f' way (Item.foldersIn entries) →
      depthIn (excluded.map f.path) (f.path way) entries =
        depthIn (excluded.map f'.path) (f'.path way) entries
  | [], _, _, _, _ => rfl
  | (name, item) :: rest, way, hway, hentries, hseen => by
    obtain ⟨hname, hitem, hrest⟩ := Item.wellNamedIn_cons_iff.mp hentries
    obtain ⟨hseenItem, hseenRest⟩ := SeenAlike.cons_iff.mp hseen
    have hsteps : ∀ s ∈ way, IsStep s := fun s hs => (hway s hs).toIsStep
    have hall : ∀ n ∈ way ++ [name], IsName n :=
      List.forall_mem_append.mpr ⟨hway, by simpa using hname⟩
    rw [depthIn, depthIn, Folder.join_path hsteps hname.toIsStep,
      Folder.join_path hsteps hname.toIsStep, depth_path hexcluded f f' item hall hitem hseenItem,
      depthIn_path hexcluded f f' rest hway hrest hseenRest]

end

/-- **A walk below the folders** finds corresponding sources. -/
theorem alike_discover (h : d.Copies f d' f') (hd : d.WellNamed)
    (hexcluded : ∀ way ∈ excluded, ∀ n ∈ way, IsName n) :
    Alike Failure.IsTooLong (Listed f f') (discover d (f.path []) (excluded.map f.path)).result
      (discover d' (f'.path []) (excluded.map f'.path)).result := by
  obtain ⟨entries, hleft, hright⟩ := h.exists_entries
  have hnamed := Disk.wellNamedIn_of_find hd hleft
  have hscan {d : Disk} {p : String} (hfind : d.find p = .ok (.folder entries)) :
      d.scan p = .ok entries := by rw [Disk.scan, hfind]
  have habsolute (f : Folder) (d : Disk) : (excluded.map f.path).map d.absolute =
      excluded.map f.path := by
    rw [List.map_map]
    exact List.map_congr_left fun way hway => Folder.absolute_of_isName (hexcluded way hway) d.cwd
  have hstart (f : Folder) (d : Disk) : d.absolute (f.path []) = f.path [] :=
    Folder.absolute_of_isName (by simp) d.cwd
  have hseen := h.seen entries hleft
  have hfound := listed_foundIn h hexcluded entries (List.forall_mem_nil _) hnamed hseen
  rw [discover, discover, hstart, hstart, hscan hleft, hscan hright, habsolute, habsolute]
  change Alike _ _ (Outcome.andThen (.ok entries) _).result (Outcome.andThen (.ok entries) _).result
  rw [Outcome.ok_andThen, Outcome.ok_andThen]
  dsimp only
  rw [h.limits, depthIn_path hexcluded f f' entries (by simp) hnamed hseen]
  split_ifs
  · exact .error _ _
  · exact .ok hfound.sorted

/-! ### Patterns of a configuration -/

/-- Slashes at the end make no difference to where a text leads. -/
private theorem within?_segments_trimEnd (way : List String) (text : String) :
    within? way (Path.segments (Text.trimEnd text '/')) = within? way (Path.segments text) := by
  rw [← Path.within?_filter, ← Path.within?_filter way (Path.segments text)]
  exact congrArg (within? way) (Path.names_trimEnd text)

/-- A relative text stays one without the slashes at its end. -/
private theorem isAbsolute_trimEnd {text : String} (h : Path.isAbsolute text = false) :
    Path.isAbsolute (Text.trimEnd text '/') = false := by
  rw [Path.isAbsolute_eq_false_iff] at h ⊢
  intro cs hcs
  obtain ⟨n, hn⟩ := Path.eq_dropRight_append '/' text.toList
  rw [Text.trimEnd, String.toList_ofList] at hcs
  rw [hcs, List.cons_append] at hn
  exact h _ hn

/-- An entry is not too long to be looked up. -/
def IsShort (d : Disk) (f : Folder) (text : String) : Prop :=
  d.find (Path.join (f.path []) (Text.trimEnd text '/')) ≠ .error .nameTooLong

/-- **An entry of `include`** is expanded to the same pattern, and the pattern stays inside. -/
theorem expandInclude_path (h : d.Copies f d' f') {text : String}
    (hinside : Config.EntryInside "include" [] text) (hshort : IsShort d f text)
    (hshort' : IsShort d' f' text) :
    expandInclude d (f.path []) text = expandInclude d' (f'.path []) text ∧
      (within? [] ((Path.names (expandInclude d (f.path []) text)).filter (· ≠ "**"))).isSome =
        true := by
  obtain ⟨goal, hgoal⟩ := Option.isSome_iff_exists.mp hinside.goal
  obtain ⟨hrel, hwithin⟩ := Path.goal?_eq_some_iff.mp hgoal
  have htrimmed := isAbsolute_trimEnd hrel
  have hfind : d.find (Path.join (f.path []) (Text.trimEnd text '/')) =
      d'.find (Path.join (f'.path []) (Text.trimEnd text '/')) := by
    rw [IsShort, Folder.join_text htrimmed] at hshort hshort'
    rw [Folder.join_text htrimmed, Folder.join_text htrimmed]
    rcases h.find _ (fun s hs => Path.not_mem_of_mem_segments hs)
      (by rw [within?_segments_trimEnd, hwithin]; rfl) with heq | hleft | hright
    · exact heq
    · exact absurd hleft hshort
    · exact absurd hright hshort'
  have hfolder : d.isFolder (Path.join (f.path []) (Text.trimEnd text '/')) =
      d'.isFolder (Path.join (f'.path []) (Text.trimEnd text '/')) := by
    rw [Disk.isFolder, Disk.isFolder, hfind]
  refine ⟨by rw [expandInclude, expandInclude, hfolder], ?_⟩
  have hnames : (within? [] ((Path.names (Text.trimEnd text '/')).filter (· ≠ "**"))).isSome =
      true := by
    rw [Path.names_trimEnd, Path.names, List.filter_comm, Path.within?_filter]
    exact hinside.pattern rfl
  rw [expandInclude]
  split_ifs
  · -- what is added for a folder leads further down
    have hdeep : Text.trimEnd text '/' ++ "/**/*" = Text.trimEnd text '/' ++ "/" ++ "**/*" := by
      rw [String.append_assoc]
      rfl
    have hadded : (Path.names "**/*").filter (· ≠ "**") = ["*"] := by decide
    obtain ⟨goal, hgoal⟩ := Option.isSome_iff_exists.mp hnames
    rw [hdeep, Path.names_append_slash, List.filter_append, hadded, Path.within?_append, hgoal,
      Option.bind_some, Path.within?_singleton (by decide)]
    rfl
  · exact hnames

end Sources

namespace Project

variable {d d' : Disk} {f f' : Folder} {strict : Bool}

/-- Whether a file that an entry of `include` finds is kept, told by the way to it. -/
def keepsWay (exclude way : List String) : Bool :=
  match within? [] way with
  | some names =>
    !Sources.coveredByAny (Folder.wayText names) exclude &&
      !Sources.throughSkipped (Folder.wayText names)
  | none => false

/-- **What is left out** is told by the ways to what was found. -/
theorem kept_map_path (exclude : List String) {ways : List (List String)}
    (hways : ∀ way ∈ ways, Inside way) (f : Folder) (strict : Bool) (d : Disk) :
    kept ⟨f.path [], strict⟩ d exclude (ways.map f.path) =
      .ok ((ways.filter (keepsWay exclude)).map f.path) := by
  induction ways with
  | nil => rfl
  | cons way rest ih =>
    obtain ⟨hway, hrest⟩ := List.forall_mem_cons.mp hways
    obtain ⟨names, hnames, -⟩ := hway.exists_names
    have hkeeps : keeps ⟨f.path [], strict⟩ d exclude (f.path way) =
        .ok (keepsWay exclude way) := by
      rw [keeps, Disk.relative, Folder.relative_path hway.isStep hnames, keepsWay, hnames]
      rfl
    rw [List.map_cons, kept, hkeeps, ih hrest, List.filter_cons]
    split_ifs with hkeep
    · simp only [hkeep]
      rfl
    · rw [Bool.not_eq_true] at hkeep
      simp only [hkeep]
      rfl

/-- An entry of `files` is found alike. -/
private theorem alike_fileEntry (h : d.Copies f d' f') (strict : Bool) {entry : Json}
    (hinside : (goal? [] entry.text).isSome = true) :
    Alike Failure.IsTooLong (Listed f f') (fileEntry ⟨f.path [], strict⟩ d entry).result
      (fileEntry ⟨f'.path [], strict⟩ d' entry).result := by
  obtain ⟨goal, hgoal⟩ := Option.isSome_iff_exists.mp hinside
  have hnames := Path.isName_of_goal? (by simp) hgoal
  rw [fileEntry, fileEntry]
  dsimp only
  rw [Folder.normalize_join (by simp) hgoal, Folder.normalize_join (by simp) hgoal,
    h.isFile_eq hnames]
  split_ifs with hfile
  · rw [← h.isFile_eq hnames] at hfile
    exact .ok (.cons .nil (.of_isName hnames) (h.ne_nil_of_isFile hfile))
  · exact .ok .nil

/-- An entry of `include` finds corresponding files. -/
private theorem alike_includeEntry (h : d.Copies f d' f') (hd : d.WellNamed) (strict : Bool)
    (exclude : List String) {entry : Json}
    (hinside : Config.EntryInside "include" [] entry.text)
    (hshort : Sources.IsShort d f entry.text) (hshort' : Sources.IsShort d' f' entry.text) :
    Alike Failure.IsTooLong (Listed f f')
      (includeEntry ⟨f.path [], strict⟩ d exclude entry).result
      (includeEntry ⟨f'.path [], strict⟩ d' exclude entry).result := by
  obtain ⟨heq, hwithin⟩ := Sources.expandInclude_path h hinside hshort hshort'
  rw [includeEntry, includeEntry]
  dsimp only
  rw [← heq, h.limits]
  generalize Sources.expandInclude d (f.path []) entry.text = text at hwithin
  simp only [Outcome.bind_eq, Outcome.result_andThen, Outcome.result_ofExcept,
    Outcome.result_ofPath]
  refine (Alike.refl _ _).bind ?_
  rintro pattern _ hread rfl
  rw [Except.mapError_eq_ok_iff] at hread
  have hglob : Alike Failure.IsTooLong (Listed f f') ((d.glob (f.path []) pattern).mapError .disk)
      ((d'.glob (f'.path []) pattern).mapError .disk) :=
    (h.alike_glob hd hread hwithin).mapError fun _ hlate => hlate
  refine hglob.bind ?_
  rintro _ _ - ⟨ways, hways, rfl, rfl⟩
  have hinside : ∀ way ∈ ways, Inside way := fun way hway => (hways way hway).1
  rw [kept_map_path exclude hinside, kept_map_path exclude hinside]
  exact .ok ⟨_, fun way hway => hways way (List.mem_filter.mp hway).1, rfl, rfl⟩

private theorem alike_gather {g g' : Json → Outcome Failure (List String)} {entries : List Json}
    (h : ∀ entry ∈ entries, Alike Failure.IsTooLong (Listed f f') (g entry).result
      (g' entry).result) :
    Alike Failure.IsTooLong (Listed f f') (gather g entries).result (gather g' entries).result := by
  induction entries with
  | nil => exact .ok .nil
  | cons entry rest ih =>
    obtain ⟨hentry, hrest⟩ := List.forall_mem_cons.mp h
    rw [gather, gather]
    simp only [Outcome.bind_eq, Outcome.result_andThen]
    refine hentry.bind fun here here' _ hhere => (ih hrest).bind fun others others' _ hothers => ?_
    exact .ok (hhere.append hothers)

/-! ### The lists of a configuration -/

variable {config config' : Json.Fields}

/-- A list of paths is the same list in both places, and its entries stay inside. -/
private theorem listSetting_match (h : Json.Fields.Match (Config.SettingMatch f f') config config')
    (key : String) (hkey : key ∈ Config.pathLists) :
    listSetting config' key = listSetting config key ∧
      ∀ entry ∈ (listSetting config key).getD [], Config.EntryInside key [] entry.text := by
  have hne : key ≠ "compilerOptions" := by
    rintro rfl
    exact absurd hkey (by decide)
  have hget := h.get key
  rw [listSetting, listSetting]
  generalize config.get? key = value at hget
  generalize config'.get? key = value' at hget
  cases hget with
  | none => exact ⟨rfl, fun _ hentry => absurd hentry List.not_mem_nil⟩
  | @some value value' hvalue =>
    cases hvalue with
    | same _ hlist =>
      refine ⟨rfl, fun entry hentry => ?_⟩
      cases value with
      | arr entries => exact hlist hkey entries rfl entry hentry
      | _ => exact absurd hentry List.not_mem_nil
    | options hoptions => exact absurd hoptions hne

/-- **The sources that a configuration names** correspond. -/
theorem alike_configuredSources (h : d.Copies f d' f') (hd : d.WellNamed) (strict : Bool)
    (hconfig : Json.Fields.Match (Config.SettingMatch f f') config config')
    (hshort : ∀ entry ∈ (listSetting config "include").getD [],
      Sources.IsShort d f entry.text ∧ Sources.IsShort d' f' entry.text) :
    Alike Failure.IsTooLong (Option.Rel (Listed f f'))
      (configuredSources ⟨f.path [], strict⟩ d config).result
      (configuredSources ⟨f'.path [], strict⟩ d' config').result := by
  obtain ⟨hfiles, hfilesInside⟩ := listSetting_match hconfig "files" (by decide)
  obtain ⟨hinclude, hincludeInside⟩ := listSetting_match hconfig "include" (by decide)
  obtain ⟨hexclude, -⟩ := listSetting_match hconfig "exclude" (by decide)
  rw [configuredSources, configuredSources, hfiles, hinclude, hexclude]
  split
  · exact .ok .none
  · have hnamed := alike_gather fun entry hentry =>
      alike_fileEntry h strict (hfilesInside entry hentry).goal
    have hfound := alike_gather fun entry hentry =>
      alike_includeEntry h hd strict (((listSetting config "exclude").getD []).map Json.text)
        (hincludeInside entry hentry) (hshort entry hentry).1 (hshort entry hentry).2
    simp only [Outcome.bind_eq, Outcome.result_andThen]
    refine hnamed.bind fun named named' _ hnamed => hfound.bind fun found found' _ hfound => ?_
    exact .ok (.some ((hnamed.append hfound).eraseDups.filter fun way hway hne =>
      Listed.isSource_path hway hne f f').sorted)

end Project

end ApiOutline
