import ApiOutline.Proofs.Config.Chain

/-!
# A chain that is too long

A tower is a folder in a folder in a folder, and in each of them lies a file that extends the file
one folder further down; the last one is empty. Every file of a tower loads by itself and is
regular, its base is there, and nothing goes in a circle. Still, whatever the limits are, a tower
that is one floor higher than they allow has no result (`not_exists_loadChain_tower`): loading stops
at the depth where one more file would have to be loaded inside the others. Two kinds of limits are
left out: those so wide that the paths in the tower get too long for the disk, and those with no
room for a file that holds an object.
-/

namespace ApiOutline

namespace Config

/-! ### The disk -/

/-- The file on a floor that has another below it. -/
def upperFile : File :=
  ⟨Utf8.encode "\x7b\"extends\":\"./a/t.json\"\x7d", none, none⟩

/-- The file on the last floor. -/
def lastFile : File :=
  ⟨Utf8.encode "\x7b\x7d", none, none⟩

/-- The entries of a folder with `floors` floors below it. -/
def tower : Nat → List (String × Item)
  | 0 => [("t.json", .file lastFile)]
  | floors + 1 => [("t.json", .file upperFile), ("a", .folder (tower floors))]

/-- The disk with a tower of one floor too many. -/
def towerDisk (limits : Limits) : Disk where
  entries := tower (limits.chain + 1)
  cwd := "/"
  limits

/-- The names on the way to the file on a floor. -/
def floorNames (floor : Nat) : List String :=
  List.replicate floor "a" ++ ["t.json"]

/-- The path of the file on a floor. -/
def floorPath (floor : Nat) : String :=
  Path.spell "/" (floorNames floor)

/-! ### Looking a floor up -/

private theorem isName_a : Path.IsName "a" :=
  ⟨⟨by decide, by decide, by decide⟩, by decide⟩

private theorem isName_file : Path.IsName "t.json" :=
  ⟨⟨by decide, by decide, by decide⟩, by decide⟩

private theorem isName_folders {floor : Nat} : ∀ n ∈ List.replicate floor "a", Path.IsName n :=
  fun _ hn => List.eq_of_mem_replicate hn ▸ isName_a

private theorem isStep_folders {floor : Nat} : ∀ n ∈ List.replicate floor "a", Path.IsStep n :=
  fun n hn => (isName_folders n hn).toIsStep

private theorem isStep_floorNames {floor : Nat} : ∀ n ∈ floorNames floor, Path.IsStep n :=
  Path.isStep_append_singleton isStep_folders isName_file.toIsStep

private theorem floorNames_ne_nil (floor : Nat) : floorNames floor ≠ [] :=
  List.append_ne_nil_of_right_ne_nil _ (List.cons_ne_nil _ _)

private theorem floorPath_injective {floor floor' : Nat} (h : floorPath floor = floorPath floor') :
    floor = floor' := by
  obtain ⟨-, hnames⟩ := Path.spell_injective (.inl rfl) (.inl rfl) isStep_floorNames
    isStep_floorNames h
  have hlength := congrArg List.length hnames
  simpa [floorNames] using hlength

private theorem length_floorPath (floor : Nat) :
    (floorPath floor).toList.length = 2 * floor + 7 := by
  rw [floorPath, Path.toList_spell (floorNames_ne_nil floor), floorNames, List.flatMap_append,
    List.length_append, List.length_flatMap, List.map_replicate, List.sum_replicate]
  simp [Nat.mul_comm]

private theorem refusal?_floorPath {floor : Nat} (h : floor ≤ 2000) :
    Disk.refusal? (floorPath floor) = none := by
  have hfolder : ∀ c ∈ '/' :: "a".toList, c.toNat < 0x80 ∧ c ≠ Char.ofNat 0 := by simp
  have hfile : ∀ c ∈ '/' :: "t.json".toList, c.toNat < 0x80 ∧ c ≠ Char.ofNat 0 := by simp
  refine Disk.refusal?_of_ascii ?_ (fun c hc => ?_) ?_
  · exact Path.ne_empty_of_isAbsolute (Path.isAbsolute_spell (.inl rfl) _)
  · rw [floorPath, Path.toList_spell (floorNames_ne_nil floor)] at hc
    obtain ⟨s, hs, hc⟩ := List.mem_flatMap.mp hc
    rcases List.mem_append.mp hs with hs | hs
    · exact hfolder c (List.eq_of_mem_replicate hs ▸ hc)
    · exact hfile c (List.mem_singleton.mp hs ▸ hc)
  · rw [length_floorPath, Disk.maxPath]
    omega

/-- The file on a floor with `below` floors below it. -/
def fileAbove (below : Nat) : File :=
  if below = 0 then lastFile else upperFile

/-- A name leads to the entry of a folder that goes by it. -/
private theorem walk_name {entries : List (String × Item)}
    {above : List (String × List (String × Item))}
    {n : String} {item : Item} (hn : Path.IsName n) (hsize : Disk.byteSize n ≤ Disk.maxName)
    (hlookup : entries.lookup (Disk.canonical n) = some item)
    (hlink : ∀ target, item ≠ .link target) (rest : List String) :
    Disk.walk .look ⟨.folder entries, above⟩ (n :: rest) =
      Disk.walk .look ⟨item, (n, entries) :: above⟩ rest := by
  rw [Disk.walk]
  dsimp only
  rw [if_neg (by simp [hn.ne_empty, hn.ne_dot]), if_neg hn.ne_up, if_neg (by simp),
    if_neg (Nat.not_lt.mpr hsize), hlookup]
  cases item with
  | link target => exact absurd rfl (hlink target)
  | _ => rfl

/-- From the top of a tower the folders lead down floor by floor. -/
private theorem walk_tower (floor below : Nat) (above : List (String × List (String × Item))) :
    ∃ above', Disk.walk .look ⟨.folder (tower (floor + below)), above⟩ (floorNames floor) =
      .ok (.goal (.there ⟨.file (fileAbove below), above'⟩)) := by
  have hcanonical : Disk.canonical "a" = "a" ∧ Disk.canonical "t.json" = "t.json" := by
    decide +kernel
  have hsize : Disk.byteSize "a" ≤ Disk.maxName ∧ Disk.byteSize "t.json" ≤ Disk.maxName := by
    decide +kernel
  induction floor generalizing above with
  | zero =>
    have hlookup : (tower below).lookup (Disk.canonical "t.json") =
        some (.file (fileAbove below)) := by
      rw [hcanonical.2]
      cases below with
      | zero => rw [tower, List.lookup_cons_self, fileAbove, if_pos rfl]
      | succ below => rw [tower, List.lookup_cons_self, fileAbove, if_neg (Nat.succ_ne_zero below)]
    rw [Nat.zero_add, floorNames, List.replicate_zero, List.nil_append,
      walk_name isName_file hsize.2 hlookup nofun]
    exact ⟨_, rfl⟩
  | succ floor ih =>
    have hlookup : (tower (floor + below + 1)).lookup (Disk.canonical "a") =
        some (.folder (tower (floor + below))) := by
      have hne : ("a" == "t.json") = false := by decide
      rw [hcanonical.1, tower, List.lookup_cons, hne]
      dsimp only
      rw [List.lookup_cons_self]
    obtain ⟨above', hwalk⟩ := ih (("a", tower (floor + below + 1)) :: above)
    refine ⟨above', ?_⟩
    rw [Nat.succ_add, floorNames, List.replicate_succ, List.cons_append,
      walk_name isName_a hsize.1 hlookup nofun]
    exact hwalk

section

variable {limits : Limits} (hchain : limits.chain < 2000)

include hchain in
private theorem find_floorPath {floor : Nat} (h : floor ≤ limits.chain + 1) :
    (towerDisk limits).find (floorPath floor) =
      .ok (.file (fileAbove (limits.chain + 1 - floor))) := by
  obtain ⟨above, hwalk⟩ := walk_tower floor (limits.chain + 1 - floor) []
  rw [Nat.add_sub_cancel' h] at hwalk
  have hway : (towerDisk limits).wayOf .look (floorPath floor) = "" :: floorNames floor := by
    rw [Disk.wayOf, if_neg (by decide), floorPath,
      Path.join_of_isAbsolute (Path.isAbsolute_spell (.inl rfl) _)]
    exact Path.segments_spell (floorNames_ne_nil floor) isStep_floorNames
  have hroot : Disk.walk .look (towerDisk limits).root ("" :: floorNames floor) =
      .ok (.goal (.there ⟨.file (fileAbove (limits.chain + 1 - floor)), above⟩)) := hwalk
  rw [Disk.find, Disk.locate, refusal?_floorPath (by omega), hway]
  dsimp only
  rw [Disk.travel, hroot]

/-! ### Loading a floor -/

/-- A file loads as its text reads, whatever its path and with whatever room it needs. -/
private theorem result_load_of_find {d : Disk} {f text : String} {contents : File} {room : Nat}
    (hroom : room ≤ d.limits.nesting) (hfind : d.find f = .ok (.file contents))
    (htext : contents.text = .ok text) {fields : Json.Fields}
    (h : (parse room "" text false true).result = .ok fields) :
    (load d f false true).result = .ok fields := by
  refine result_loadWithin_of_le hroom (Eq.trans ?_ h)
  rw [loadWithin, Disk.read, hfind]
  dsimp only
  rw [htext]
  dsimp only
  rw [parse, parse, if_pos rfl]
  split_ifs with hblank
  · rw [Outcome.result_settle_false, Outcome.result_settle_false]
  · split <;> simp only [Outcome.result_settle_false]

variable (hnesting : 1 ≤ limits.nesting)

include hchain hnesting in
private theorem exists_load_floorPath {floor : Nat} (h : floor ≤ limits.chain) :
    ∃ fields, (load (towerDisk limits) (floorPath floor) false true).result = .ok fields ∧
      (fields.get? "extends").bind baseNames = some ["./a/t.json"] ∧ Regular fields := by
  have hfind := find_floorPath hchain (Nat.le_succ_of_le h)
  rw [fileAbove, if_neg (by omega)] at hfind
  have htext : ∃ text, upperFile.text = .ok text ∧ text = "\x7b\"extends\":\"./a/t.json\"\x7d" := by
    decide +kernel
  obtain ⟨_, htext, rfl⟩ := htext
  have hparse : ∃ fields,
      (parse 1 "" "\x7b\"extends\":\"./a/t.json\"\x7d" false true).result = .ok fields ∧
        (fields.get? "extends").bind baseNames = some ["./a/t.json"] ∧ Regular fields := by
    decide +kernel
  obtain ⟨fields, hfields, hregular⟩ := hparse
  exact ⟨fields, result_load_of_find hnesting hfind htext hfields, hregular⟩

include hchain hnesting in
private theorem exists_load_last :
    ∃ fields, (load (towerDisk limits) (floorPath (limits.chain + 1)) false true).result =
        .ok fields ∧
      (fields.get? "extends").bind baseNames = none ∧ Regular fields := by
  have hfind := find_floorPath hchain (Nat.le_refl _)
  rw [fileAbove, if_pos (Nat.sub_self _)] at hfind
  have htext : ∃ text, lastFile.text = .ok text ∧ text = "\x7b\x7d" := by decide +kernel
  obtain ⟨_, htext, rfl⟩ := htext
  have hparse : ∃ fields, (parse 1 "" "\x7b\x7d" false true).result = .ok fields ∧
      (fields.get? "extends").bind baseNames = none ∧ Regular fields := by
    decide +kernel
  obtain ⟨fields, hfields, hregular⟩ := hparse
  exact ⟨fields, result_load_of_find hnesting hfind htext hfields, hregular⟩

/-- The entry on every floor leads one floor down. -/
private theorem baseCandidates_floorPath (floor : Nat) :
    baseCandidates "./a/t.json" (Path.dirname (floorPath floor)) = [floorPath (floor + 1)] := by
  have hdir : Path.dirname (floorPath floor) = Path.spell "/" (List.replicate floor "a") :=
    Path.dirname_spell (.inl rfl) isStep_folders isName_file.toIsStep
  have hsteps : Path.collapse true (List.replicate floor "a" ++ Path.names "./a/t.json") =
      floorNames (floor + 1) := by
    have hnames : Path.names "./a/t.json" = [".", "a", "t.json"] := by decide
    have hstack : (List.replicate floor "a").foldl (Path.climb true) [] =
        (List.replicate floor "a").reverse := by
      rw [← Path.collapse_of_isName isName_folders true, Path.collapse, List.reverse_reverse,
        ← Path.collapse, Path.collapse_of_isName isName_folders true]
    rw [Path.collapse, List.foldl_append, hstack, hnames]
    simp [Path.climb, floorNames, List.replicate_succ']
  have hbase : Path.normalize (Path.join (Path.dirname (floorPath floor)) "./a/t.json") =
      floorPath (floor + 1) := by
    rw [hdir, Path.normalize_join (Path.isAbsolute_spell (.inl rfl) _) (by decide),
      Path.rootOf_spell (.inl rfl) isStep_folders, Path.names_spell (.inl rfl) isStep_folders,
      hsteps, floorPath]
  have hend : Text.endsWith (floorPath (floor + 1)) ".json" = true := by
    rw [floorPath, floorNames, Path.spell_append_singleton "/" (by simp)]
    refine List.isSuffixOf_iff_suffix.mpr
      ⟨(Path.spell "/" (List.replicate (floor + 1) "a") ++ "/t").toList, ?_⟩
    simp
  rw [baseCandidates, if_pos (by decide)]
  dsimp only
  rw [hbase, if_pos hend]

include hchain hnesting in
private theorem bases_floorPath {floor : Nat} (h : floor ≤ limits.chain) :
    bases (towerDisk limits) (floorPath floor) = [floorPath (floor + 1)] := by
  have hfile : (towerDisk limits).isFile (floorPath (floor + 1)) = true := by
    rw [Disk.isFile, find_floorPath hchain (Nat.succ_le_succ h)]
    rfl
  have hbase : resolveBase (towerDisk limits) "./a/t.json" (Path.dirname (floorPath floor)) =
      some (floorPath (floor + 1)) := by
    rw [resolveBase, baseCandidates_floorPath, List.find?_cons_of_pos hfile]
  obtain ⟨fields, hload, hnames, -⟩ := exists_load_floorPath hchain hnesting h
  rw [bases, settings, hload]
  dsimp only
  rw [hnames, Option.getD_some, List.filterMap_cons, hbase, List.filterMap_nil]

include hchain hnesting in
private theorem bases_last : bases (towerDisk limits) (floorPath (limits.chain + 1)) = [] := by
  obtain ⟨fields, hload, hnames, -⟩ := exists_load_last hchain hnesting
  rw [bases, settings, hload]
  dsimp only
  rw [hnames, Option.getD_none, List.filterMap_nil]

/-! ### The whole tower -/

/-- The files that come before a floor, innermost first. -/
def floorsAbove : Nat → List String
  | 0 => []
  | floor + 1 => floorPath floor :: floorsAbove floor

private theorem length_floorsAbove (floor : Nat) : (floorsAbove floor).length = floor := by
  induction floor with
  | zero => rfl
  | succ floor ih => rw [floorsAbove, List.length_cons, ih]

private theorem lt_of_mem_floorsAbove {floor n : Nat} (h : floorPath n ∈ floorsAbove floor) :
    n < floor := by
  induction floor with
  | zero => cases h
  | succ floor ih =>
    rcases List.mem_cons.mp h with heq | h
    · exact Nat.lt_succ_of_le (Nat.le_of_eq (floorPath_injective heq))
    · exact Nat.lt_succ_of_lt (ih h)

include hchain hnesting in
/-- Every floor is come to. -/
private theorem reached_floor {floor : Nat} (h : floor ≤ limits.chain + 1) :
    Reached (towerDisk limits) (floorPath 0) (floorsAbove floor) (floorPath floor) := by
  induction floor with
  | zero => exact .start
  | succ floor ih =>
    refine .base (ih (Nat.le_of_lt h)) (fun hmem => ?_) ?_
    · exact Nat.lt_irrefl floor (lt_of_mem_floorsAbove hmem)
    · rw [bases_floorPath hchain hnesting (Nat.le_of_succ_le_succ h)]
      exact List.mem_singleton_self _

include hchain hnesting in
/-- Every file that is come to loads by itself and is regular: it lies on a floor. -/
private theorem exists_load_of_reached_tower {chain : List String} {f : String}
    (h : Reached (towerDisk limits) (floorPath 0) chain f) :
    ∃ fields, (load (towerDisk limits) f false true).result = .ok fields ∧ Regular fields := by
  have hfloor : ∃ floor ≤ limits.chain + 1, f = floorPath floor := by
    induction h with
    | start => exact ⟨0, Nat.zero_le _, rfl⟩
    | base _ _ hb ih =>
      obtain ⟨floor, hfloor, rfl⟩ := ih
      rcases Nat.lt_or_eq_of_le hfloor with hlt | rfl
      · rw [bases_floorPath hchain hnesting (Nat.le_of_lt_succ hlt)] at hb
        exact ⟨floor + 1, hlt, List.mem_singleton.mp hb⟩
      · rw [bases_last hchain hnesting] at hb
        cases hb
  obtain ⟨floor, hle, rfl⟩ := hfloor
  rcases Nat.lt_or_eq_of_le hle with hlt | rfl
  · obtain ⟨fields, hload, -, hfields⟩ :=
      exists_load_floorPath hchain hnesting (Nat.le_of_lt_succ hlt)
    exact ⟨fields, hload, hfields⟩
  · obtain ⟨fields, hload, -, hfields⟩ := exists_load_last hchain hnesting
    exact ⟨fields, hload, hfields⟩

end

/-- **A tower has no result**, although every file of it loads by itself and is regular. -/
theorem not_exists_loadChain_tower :
    (∀ limits : Limits, limits.chain < 2000 → 1 ≤ limits.nesting →
      ∀ {chain f}, Reached (towerDisk limits) ((towerDisk limits).absolute "t.json") chain f →
        ∃ fields, (load (towerDisk limits) f false true).result = .ok fields ∧ Regular fields) ∧
    ∀ limits : Limits, limits.chain < 2000 → 1 ≤ limits.nesting →
      ¬∃ merged, (loadChain (towerDisk limits) "t.json" false).result = .ok merged := by
  have hstart (limits : Limits) : (towerDisk limits).absolute "t.json" = floorPath 0 := by
    change Path.absolute "/" "t.json" = floorPath 0
    decide +kernel
  refine ⟨fun limits hchain hnesting => ?_, fun limits hchain hnesting ⟨merged, h⟩ => ?_⟩
  · rw [hstart]
    exact exists_load_of_reached_tower hchain hnesting
  · rw [loadChain, hstart] at h
    -- the last floor is come to, and no level is left for it
    obtain ⟨fuel, _, hfuel, -⟩ := exists_loadLevel_of_reached (Path.isAbsolute_spell (.inl rfl) _)
      (exists_load_of_reached_tower hchain hnesting) h
      (reached_floor hchain hnesting (Nat.le_refl _))
    rw [length_floorsAbove] at hfuel
    change limits.chain + 1 + fuel = limits.chain at hfuel
    omega

end Config

end ApiOutline
