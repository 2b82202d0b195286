import ApiOutline.Proofs.Disk.Paths
import ApiOutline.Proofs.Disk.Walks
import ApiOutline.Proofs.Path.Names
import Mathlib.Algebra.GroupWithZero.Nat

/-!
# Places and spellings

One place on a disk has many paths. Where there are no links, a path in its shortest spelling leads
down from the root by its own names, so what tells places apart tells such paths apart
(`wayTo_spell`), with one exception: the bytes of a character may be spelled one by one, and the
disk does not see the difference. A text without lone surrogates, `Written`, has no second spelling
of this kind.

Nothing is said about other spellings. A path with a step up leads to a place, too, but its names
are not the way to it.
-/

namespace ApiOutline

/-! ### Items without links -/

namespace Item

mutual

/-- Whether no link stands at or below an item. -/
def linkFree : Item → Bool
  | .folder entries => linkFreeIn entries
  | .file _ => true
  | .link _ => false

/-- Whether no link stands among or below some entries. -/
def linkFreeIn : List (String × Item) → Bool
  | [] => true
  | (_, item) :: rest => item.linkFree && linkFreeIn rest

end

mutual

/-- The ways from an item down to the files at or below it. -/
def files : Item → List (List String)
  | .folder entries => filesIn entries
  | .file _ => [[]]
  | .link _ => []

/-- The ways down to the files among and below some entries. -/
def filesIn : List (String × Item) → List (List String)
  | [] => []
  | (name, item) :: rest => item.files.map (name :: ·) ++ filesIn rest

end

variable {entries : List (String × Item)} {name : String} {item : Item}

private theorem linkFreeIn_iff :
    linkFreeIn entries = true ↔ ∀ entry ∈ entries, entry.2.linkFree = true := by
  induction entries with
  | nil => simp [linkFreeIn]
  | cons entry rest ih => rw [linkFreeIn, Bool.and_eq_true, ih, List.forall_mem_cons]

theorem linkFree_of_lookup (h : linkFreeIn entries = true)
    (hlookup : entries.lookup name = some item) : item.linkFree = true :=
  linkFreeIn_iff.mp h _ (mem_of_lookup hlookup)

private theorem mem_filesIn_iff {way : List String} :
    way ∈ filesIn entries ↔ ∃ entry ∈ entries, ∃ rest ∈ entry.2.files, entry.1 :: rest = way := by
  induction entries with
  | nil => simp [filesIn]
  | cons entry rest ih =>
    simp only [filesIn, List.mem_append, ih, List.mem_map, List.mem_cons, or_and_right, exists_or,
      exists_eq_left]

private theorem mem_filesIn_of_lookup (hlookup : entries.lookup name = some item)
    {way : List String}
    (h : way ∈ item.files) : name :: way ∈ filesIn entries :=
  mem_filesIn_iff.mpr ⟨_, mem_of_lookup hlookup, way, h, rfl⟩

end Item

/-! ### Texts without lone surrogates -/

namespace Text

/-- A plain character neither begins nor ends the spelling of two characters. -/
theorem ne_mark_of_ascii {c : Char} (h : c.toNat < 0x80) : c ≠ Symbol.mark := by
  rintro rfl
  exact absurd h (by decide)

private theorem unit?_of_ascii {c : Char} (h : c.toNat < 0x80) : Symbol.unit? c = none := by
  unfold Symbol.unit?
  rw [Symbol.shift, if_neg]
  omega

/-- A plain character leaves what comes before it as it is. -/
theorem symbolsOf_append_cons {c : Char} (h : c.toNat < 0x80) (cs ds : List Char) :
    symbolsOf (cs ++ c :: ds) = symbolsOf cs ++ symbolsOf (c :: ds) := by
  have hmark := ne_mark_of_ascii h
  have hunit := unit?_of_ascii h
  fun_induction symbolsOf cs with
  | case1 => rfl
  | case2 =>
    rw [List.singleton_append, List.singleton_append, symbolsOf, if_pos rfl]
    simp only [hmark, if_false, hunit]
  | case3 es ih => simp [symbolsOf, ih]
  | case4 e es he unit hu ih => simp [symbolsOf, he, hu, ih]
  | case5 e es he hu ih => simpa [symbolsOf, he, hu] using ih
  | case6 e es he ih => simp [symbolsOf.eq_def (e :: _), he, ih]

/-- A text holds no lone surrogate. -/
def Whole (s : String) : Prop :=
  ∀ a ∈ symbols s, a.isLone = false

/-- Plain text is whole. -/
theorem whole_of_ascii {s : String} (h : s.toList.all (·.toNat < 0x80) = true) : Whole s := by
  intro a ha
  rw [Disk.symbols_of_ascii fun c hc => of_decide_eq_true (List.all_eq_true.mp h c hc)] at ha
  obtain ⟨c, -, rfl⟩ := List.mem_map.mp ha
  rfl

/-- A whole text stays whole when one is added that begins with a plain character. -/
theorem Whole.append {p q : String} {c : Char} {cs : List Char} (hp : Whole p) (hq : Whole q)
    (hcs : q.toList = c :: cs) (hc : c.toNat < 0x80) : Whole (p ++ q) := by
  intro a ha
  rw [symbols, String.toList_append, hcs, symbolsOf_append_cons hc, ← hcs] at ha
  rcases List.mem_append.mp ha with ha | ha
  · exact hp a ha
  · exact hq a ha

/-- What stands between slashes keeps its symbols. -/
private theorem mem_symbolsOf_intercalate {parts : List (List Char)} {part : List Char}
    (h : part ∈ parts) {a : Symbol} (ha : a ∈ symbolsOf part) :
    a ∈ symbolsOf (['/'].intercalate parts) := by
  induction parts with
  | nil => cases h
  | cons first rest ih =>
    cases rest with
    | nil =>
      rw [List.mem_singleton] at h
      rwa [List.intercalate_singleton, ← h]
    | cons second rest =>
      rw [List.intercalate_cons_cons, List.append_assoc, List.singleton_append,
        symbolsOf_append_cons (by decide), List.mem_append]
      rcases List.mem_cons.mp h with rfl | h
      · exact .inl ha
      · refine .inr ?_
        rw [symbolsOf.eq_def]
        exact List.mem_cons_of_mem _ (ih h)

/-- The segments of a whole text are whole. -/
theorem Whole.segment {p s : String} (h : Whole p) (hs : s ∈ Path.segments p) : Whole s := by
  obtain ⟨part, hpart, rfl⟩ := List.mem_map.mp hs
  intro a ha
  rw [symbols, String.toList_ofList] at ha
  have hp : ['/'].intercalate (p.toList.splitOn '/') = p.toList := List.intercalate_splitOn '/'
  exact h a (by rw [symbols, ← hp]; exact mem_symbolsOf_intercalate hpart ha)

end Text

/-! ### How long paths are -/

namespace Disk

theorem byteSize_of_toList {p : String} {front cs : List Char} (h : p.toList = front ++ '/' :: cs) :
    byteSize p = byteSize (String.ofList front) + 1 + byteSize (String.ofList cs) := by
  have hslash : Text.symbolsOf ('/' :: cs) = .char '/' :: Text.symbolsOf cs := by
    rw [Text.symbolsOf.eq_def]
    exact if_neg (by decide)
  have hone : (symbolBytes (.char '/')).length = 1 := by decide
  simp only [byteSize, pathBytes, Text.symbols, String.toList_ofList]
  rw [h, Text.symbolsOf_append_cons (by decide), hslash, List.flatMap_append, List.flatMap_cons,
    List.length_append, List.length_append, hone, Nat.add_assoc]

theorem toList_intercalate (n m : String) (rest : List String) :
    ("/".intercalate (n :: m :: rest)).toList =
      n.toList ++ '/' :: ("/".intercalate (m :: rest)).toList := by
  rw [String.intercalate_cons_cons, String.toList_append, String.toList_append, List.append_assoc]
  rfl

/-- Names with slashes between them take their own bytes and those of the slashes. -/
theorem byteSize_intercalate_add_one {names : List String} (hne : names ≠ []) :
    byteSize ("/".intercalate names) + 1 = (names.map fun n => byteSize n + 1).sum := by
  induction names with
  | nil => exact absurd rfl hne
  | cons n rest ih =>
    cases rest with
    | nil => rw [String.intercalate_singleton, List.map_singleton, List.sum_singleton]
    | cons m rest =>
      have hsize := byteSize_of_toList (toList_intercalate n m rest)
      rw [String.ofList_toList, String.ofList_toList] at hsize
      rw [hsize, List.map_cons, List.sum_cons, ← ih (List.cons_ne_nil m rest), Nat.add_assoc]

end Disk

/-! ### Places -/

namespace Disk

open ApiOutline.Path (IsName spell)

/-- No link stands anywhere on a disk. -/
def LinkFree (d : Disk) : Prop :=
  Item.linkFreeIn d.entries = true

instance (d : Disk) : Decidable d.LinkFree :=
  inferInstanceAs (Decidable (Item.linkFreeIn d.entries = true))

/-- The ways from the root to all files of a disk. -/
def files (d : Disk) : List (List String) :=
  Item.filesIn d.entries

/-- The names on the way from the root to the place that a path leads to. -/
def wayTo (d : Disk) (p : String) : Option (List String) :=
  match d.locate .look p with
  | .ok (.there place) => some (place.way.map canonical)
  | _ => none

/-- A walk does not stay where it is at a name. -/
theorem not_isSkipped_of_isName {name : String} (h : IsName name) : ¬IsSkipped name :=
  not_or.mpr ⟨h.ne_empty, h.ne_dot⟩

/-- Names lead down, one folder each, and never away through a link. -/
private theorem walk_of_isName {here : Place} {steps : List String} {stretch : Stretch}
    (hfree : here.item.linkFree = true) (hsteps : ∀ s ∈ steps, IsName s)
    (h : walk .look here steps = .ok stretch) :
    (∃ place, stretch = .goal (.there place) ∧ place.way = here.way ++ steps ∧
      (place.item.isFile = true → steps.map canonical ∈ here.item.files)) ∨
    ∃ folder segment, stretch = .goal (.gap folder segment) := by
  induction steps generalizing here with
  | nil =>
    refine .inl ⟨here, (Except.ok.inj h).symm, (List.append_nil _).symm, fun hfile => ?_⟩
    cases hitem : here.item with
    | file contents => simp [Item.files]
    | folder entries =>
      rw [hitem] at hfile
      cases hfile
    | link target =>
      rw [hitem] at hfile
      cases hfile
  | cons step rest ih =>
    obtain ⟨hstep, hrest⟩ := List.forall_mem_cons.mp hsteps
    obtain ⟨entries, hentries, hadvance⟩ := exists_advance h
    rw [hentries, Item.linkFree] at hfree
    cases hadvance with
    | skip hskip _ => exact absurd hskip (not_isSkipped_of_isName hstep)
    | up hup _ => exact absurd hup hstep.ne_up
    | gap _ _ _ => exact .inr ⟨_, _, rfl⟩
    | last hpurpose _ _ => cases hpurpose
    | link _ hlookup => cases Item.linkFree_of_lookup hfree hlookup
    | enter _ hlookup _ h =>
      rcases ih (Item.linkFree_of_lookup hfree hlookup) hrest h with
        ⟨place, hplace, hway, hfile⟩ | hgap
      · refine .inl ⟨place, hplace, ?_, fun hisFile => ?_⟩
        · rw [hway, Place.way, Place.way, List.map_cons, List.reverse_cons, List.append_assoc,
            List.singleton_append]
        · rw [hentries, Item.files, List.map_cons]
          exact Item.mem_filesIn_of_lookup hlookup (hfile hisFile)
      · exact .inr hgap

/-- The segments of a normal path lead from the root where its names do. -/
private theorem walk_segments_spell (d : Disk) {steps : List String} (h : ∀ s ∈ steps, IsName s) :
    walk .look d.root (Path.segments (spell "/" steps)) = walk .look d.root steps := by
  by_cases hne : steps = []
  · subst hne
    rfl
  · rw [Path.segments_spell hne fun s hs => (h s hs).toIsStep]
    rfl

/-- **A normal path leads down by its own names** on a disk without links. -/
theorem wayTo_spell {d : Disk} (hfree : d.LinkFree) {steps : List String}
    (hsteps : ∀ s ∈ steps, IsName s) {item : Item} (h : d.find (spell "/" steps) = .ok item) :
    d.wayTo (spell "/" steps) = some (steps.map canonical) ∧
      (item.isFile = true → steps.map canonical ∈ d.files) := by
  have habs : Path.isAbsolute (spell "/" steps) = true := Path.isAbsolute_spell (.inl rfl) steps
  have hway : d.wayOf .look (spell "/" steps) = Path.segments (spell "/" steps) := by
    rw [wayOf, Path.join_of_isAbsolute habs]
    rfl
  rw [find] at h
  split at h
  · next place hlocate =>
    rw [wayTo, hlocate]
    obtain rfl := Except.ok.inj h
    rw [locate, hway] at hlocate
    split at hlocate
    · cases hlocate
    cases hwalk : walk .look d.root (Path.segments (spell "/" steps)) with
    | error cause =>
      rw [travel.eq_def, hwalk] at hlocate
      cases hlocate
    | ok stretch =>
      have hroot : d.root.item.linkFree = true := hfree
      rcases walk_of_isName hroot hsteps (walk_segments_spell d hsteps ▸ hwalk) with
        ⟨there, rfl, hthere, hfile⟩ | ⟨folder, segment, rfl⟩
      · rw [travel_of_goal hwalk] at hlocate
        obtain rfl := Goal.there.inj (Except.ok.inj hlocate)
        dsimp only
        rw [hthere]
        exact ⟨rfl, hfile⟩
      · rw [travel_of_goal hwalk] at hlocate
        cases hlocate
  · cases h
  · cases h

end Disk

end ApiOutline
