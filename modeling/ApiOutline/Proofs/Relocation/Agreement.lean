import ApiOutline.Proofs.Outcome
import ApiOutline.Proofs.Path.Folder

/-!
# Results at two places

A package that is copied to another folder has other absolute paths, and longer ones may be too long
for the disk. Two results are *alike* when they are values that correspond, when both are failures,
or when one of them is the failure that a name is too long; nothing is said about the other one
then. Computations in a row are alike when their steps are (`Alike.bind`).

Two folders are *copies* when the same can be looked up in both by every way that stays inside.
What is found by names has to be found in both: looking whether a file is there hides that its path
is too long. A walk passes over a folder whose path is too long without a word, so such a folder has
to be one in both. Nothing is said about links, as long as they lead to the same items. The two
disks have the same limits.
-/

namespace ApiOutline

open ApiOutline.Path (IsStep IsName Folder Inside within?)

/-! ### Results that are alike -/

/-- Two results are values that correspond, or failures, or one of them is a late failure. -/
inductive Alike {ε α β : Type} (late : ε → Prop) (V : α → β → Prop) :
    Except ε α → Except ε β → Prop
  | ok {a : α} {b : β} (h : V a b) : Alike late V (.ok a) (.ok b)
  | error (e e' : ε) : Alike late V (.error e) (.error e')
  | left {e : ε} (h : late e) (y : Except ε β) : Alike late V (.error e) y
  | right (x : Except ε α) {e : ε} (h : late e) : Alike late V x (.error e)

namespace Alike

variable {ε α β : Type} {late : ε → Prop} {V : α → β → Prop} {x : Except ε α} {y : Except ε β}

theorem refl (late : ε → Prop) (x : Except ε α) : Alike late Eq x x := by
  cases x with
  | ok a => exact .ok rfl
  | error e => exact .error e e

theorem mono {W : α → β → Prop} (h : Alike late V x y) (hV : ∀ {a b}, V a b → W a b) :
    Alike late W x y := by
  cases h with
  | ok h => exact .ok (hV h)
  | error e e' => exact .error e e'
  | left h y => exact .left h y
  | right x h => exact .right x h

/-- **Steps in a row** are alike. -/
theorem bind {γ δ : Type} {W : γ → δ → Prop} {f : α → Except ε γ} {g : β → Except ε δ}
    (h : Alike late V x y) (hf : ∀ a b, x = .ok a → V a b → Alike late W (f a) (g b)) :
    Alike late W (x >>= f) (y >>= g) := by
  cases h with
  | ok h => exact hf _ _ rfl h
  | error e e' => exact .error e e'
  | left h y => exact .left h _
  | right x h => exact .right _ h

theorem map {γ δ : Type} {W : γ → δ → Prop} {f : α → γ} {g : β → δ} (h : Alike late V x y)
    (hf : ∀ a b, V a b → W (f a) (g b)) : Alike late W (x.map f) (y.map g) := by
  cases h with
  | ok h => exact .ok (hf _ _ h)
  | error e e' => exact .error e e'
  | left h y => exact .left h _
  | right x h => exact .right _ h

theorem mapError {ε' : Type} {late' : ε' → Prop} {f : ε → ε'} (h : Alike late V x y)
    (hf : ∀ e, late e → late' (f e)) : Alike late' V (x.mapError f) (y.mapError f) := by
  cases h with
  | ok h => exact .ok h
  | error e e' => exact .error _ _
  | left h y => exact .left (hf _ h) _
  | right x h => exact .right _ (hf _ h)

/-- A computation repeated along a list keeps what corresponds. -/
theorem foldlM {γ : Type} {f : α → γ → Except ε α} {g : β → γ → Except ε β} {items : List γ}
    (hf : ∀ item ∈ items, ∀ a b, V a b → Alike late V (f a item) (g b item)) {a : α} {b : β}
    (h : V a b) : Alike late V (items.foldlM f a) (items.foldlM g b) := by
  induction items generalizing a b with
  | nil => exact .ok h
  | cons item rest ih =>
    rw [List.foldlM_cons, List.foldlM_cons]
    obtain ⟨hitem, hrest⟩ := List.forall_mem_cons.mp hf
    exact (hitem a b h).bind fun a b _ hab => ih hrest hab

end Alike

/-- A name was too long to be looked up. -/
def Disk.Fault.IsTooLong (fault : Disk.Fault) : Prop :=
  fault.cause = .nameTooLong

theorem Disk.Fault.isTooLong_mk (p : String) : Disk.Fault.IsTooLong ⟨.nameTooLong, p⟩ := rfl

/-- A name was too long to be looked up. -/
def Failure.IsTooLong : Failure → Prop
  | .disk fault => fault.IsTooLong
  | _ => False

/-- A settled problem is settled alike. -/
theorem Outcome.alike_settle {α β : Type} {V : α → β → Prop} (strict : Bool)
    (problem problem' : Config.Problem) {a : α} {b : β} (h : V a b) :
    Alike Failure.IsTooLong V (settle strict problem a).result
      (settle strict problem' b).result := by
  cases strict with
  | false => exact .ok h
  | true => exact .error _ _

/-! ### Lists of paths -/

/-- Two lists hold paths to the same places below the folders, in the same order. -/
def Listed (f f' : Folder) (paths paths' : List String) : Prop :=
  ∃ ways : List (List String), (∀ way ∈ ways, Inside way ∧ way ≠ []) ∧
    paths = ways.map f.path ∧ paths' = ways.map f'.path

namespace Listed

variable {f f' : Folder} {paths paths' : List String}

theorem nil : Listed f f' [] [] :=
  ⟨[], by simp, rfl, rfl⟩

theorem cons (h : Listed f f' paths paths') {way : List String} (hway : Inside way)
    (hne : way ≠ []) : Listed f f' (f.path way :: paths) (f'.path way :: paths') := by
  obtain ⟨ways, hways, rfl, rfl⟩ := h
  exact ⟨way :: ways, List.forall_mem_cons.mpr ⟨⟨hway, hne⟩, hways⟩, rfl, rfl⟩

theorem append (h : Listed f f' paths paths') {more more' : List String}
    (hmore : Listed f f' more more') : Listed f f' (paths ++ more) (paths' ++ more') := by
  obtain ⟨ways, hways, rfl, rfl⟩ := h
  obtain ⟨others, hothers, rfl, rfl⟩ := hmore
  exact ⟨ways ++ others, List.forall_mem_append.mpr ⟨hways, hothers⟩, List.map_append.symm,
    List.map_append.symm⟩

end Listed

/-! ### Ways to folders -/

namespace Item

mutual

/-- The ways from an item down to the folders at and below it. -/
def folders : Item → List (List String)
  | .folder entries => [] :: foldersIn entries
  | .file _ => []
  | .link _ => []

/-- The ways down to the folders among and below some entries. -/
def foldersIn : List (String × Item) → List (List String)
  | [] => []
  | (name, item) :: rest => item.folders.map (name :: ·) ++ foldersIn rest

end

end Item

/-- Whether a path is too long comes out the same in both places, for each of the ways that go on
from `way`. -/
def SeenAlike (f f' : Folder) (way : List String) (ways : List (List String)) : Prop :=
  ∀ more ∈ ways, Disk.isOverlong (f.path (way ++ more)) = Disk.isOverlong (f'.path (way ++ more))

namespace SeenAlike

variable {f f' : Folder} {way : List String}

theorem folder_iff {entries : List (String × Item)} :
    SeenAlike f f' way (Item.folder entries).folders ↔
      Disk.isOverlong (f.path way) = Disk.isOverlong (f'.path way) ∧
        SeenAlike f f' way (Item.foldersIn entries) := by
  rw [SeenAlike, Item.folders, List.forall_mem_cons, List.append_nil]
  rfl

theorem cons_iff {name : String} {item : Item} {rest : List (String × Item)} :
    SeenAlike f f' way (Item.foldersIn ((name, item) :: rest)) ↔
      SeenAlike f f' (way ++ [name]) item.folders ∧
        SeenAlike f f' way (Item.foldersIn rest) := by
  rw [SeenAlike, Item.foldersIn, List.forall_mem_append, List.forall_mem_map]
  simp only [SeenAlike, List.append_assoc, List.singleton_append]

end SeenAlike

/-! ### Copies -/

namespace Disk

/-- Two look-ups give the same, unless a name is too long for one of them. -/
def Agree (x y : Except Cause Item) : Prop :=
  x = y ∨ x = .error .nameTooLong ∨ y = .error .nameTooLong

/-- The folder `f` of one disk and the folder `f'` of another hold copies of the same. -/
structure Copies (d : Disk) (f : Folder) (d' : Disk) (f' : Folder) : Prop where
  limits : d.limits = d'.limits
  stands : ∃ entries, d.find (f.path []) = .ok (.folder entries)
  find : ∀ segments, (∀ s ∈ segments, '/' ∉ s.toList) → (within? [] segments).isSome = true →
    Agree (d.find (f.path segments)) (d'.find (f'.path segments))
  item : ∀ names, (∀ n ∈ names, IsName n) → ∀ item,
    d.find (f.path names) = .ok item ↔ d'.find (f'.path names) = .ok item
  seen : ∀ entries, d.find (f.path []) = .ok (.folder entries) →
    SeenAlike f f' [] (Item.foldersIn entries)

namespace Copies

variable {d d' : Disk} {f f' : Folder} {steps : List String}

private theorem find_inside (h : d.Copies f d' f') (hsteps : Inside steps) :
    Agree (d.find (f.path steps)) (d'.find (f'.path steps)) :=
  h.find steps (fun s hs => (hsteps.isStep s hs).no_slash) hsteps.within

/-- A test of what stands at a path comes out the same, if it fails where nothing stands. -/
private theorem test_eq (h : d.Copies f d' f') (hsteps : ∀ n ∈ steps, IsName n)
    (test : Item → Bool) :
    (match d.find (f.path steps) with | .ok item => test item | .error _ => false) =
      match d'.find (f'.path steps) with | .ok item => test item | .error _ => false := by
  have hitem := h.item steps hsteps
  cases hleft : d.find (f.path steps) with
  | ok item => rw [(hitem item).mp hleft]
  | error cause =>
    cases hright : d'.find (f'.path steps) with
    | ok item => rw [(hitem item).mpr hright] at hleft; cases hleft
    | error cause' => rfl

theorem isFile_eq (h : d.Copies f d' f') (hsteps : ∀ n ∈ steps, IsName n) :
    d.isFile (f.path steps) = d'.isFile (f'.path steps) :=
  h.test_eq hsteps Item.isFile

theorem isFolder_eq (h : d.Copies f d' f') (hsteps : ∀ n ∈ steps, IsName n) :
    d.isFolder (f.path steps) = d'.isFolder (f'.path steps) :=
  h.test_eq hsteps Item.isFolder

/-- The folder itself holds the same entries in both places. -/
theorem exists_entries (h : d.Copies f d' f') : ∃ entries,
    d.find (f.path []) = .ok (.folder entries) ∧ d'.find (f'.path []) = .ok (.folder entries) := by
  obtain ⟨entries, hentries⟩ := h.stands
  exact ⟨entries, hentries, (h.item [] (by simp) _).mp hentries⟩

/-- A folder that is no file. -/
theorem ne_nil_of_isFile (h : d.Copies f d' f') (hfile : d.isFile (f.path steps) = true) :
    steps ≠ [] := by
  rintro rfl
  obtain ⟨entries, hentries⟩ := h.stands
  rw [isFile, hentries] at hfile
  cases hfile

theorem ne_nil_of_probe (h : d.Copies f d' f') {found : Option Item}
    (hprobe : d.probe (f.path steps) = .ok found) (hfile : found.any Item.isFile = true) :
    steps ≠ [] := by
  rintro rfl
  obtain ⟨entries, hentries⟩ := h.stands
  rw [probe, hentries] at hprobe
  rw [← Except.ok.inj hprobe] at hfile
  cases hfile

/-- **What is made of a look-up** is alike, if it is a late failure where the name is too long. -/
theorem alike_of_find {ε α : Type} {late : ε → Prop} {x y : Except ε α} (h : d.Copies f d' f')
    (hsteps : Inside steps)
    (hsame : d.find (f.path steps) = d'.find (f'.path steps) → Alike late Eq x y)
    (hleft : d.find (f.path steps) = .error .nameTooLong → ∃ e, x = .error e ∧ late e)
    (hright : d'.find (f'.path steps) = .error .nameTooLong → ∃ e, y = .error e ∧ late e) :
    Alike late Eq x y := by
  rcases h.find_inside hsteps with heq | heq | heq
  · exact hsame heq
  · obtain ⟨e, rfl, hlate⟩ := hleft heq
    exact .left hlate y
  · obtain ⟨e, rfl, hlate⟩ := hright heq
    exact .right x hlate

theorem alike_probe (h : d.Copies f d' f') (hsteps : Inside steps) :
    Alike Fault.IsTooLong Eq (d.probe (f.path steps)) (d'.probe (f'.path steps)) := by
  have hlate {d : Disk} {p : String} (hfind : d.find p = .error .nameTooLong) :
      ∃ e, d.probe p = .error e ∧ e.IsTooLong := by
    rw [probe, hfind]
    exact ⟨_, rfl, rfl⟩
  refine h.alike_of_find hsteps (fun heq => ?_) hlate hlate
  rw [probe, probe, heq]
  generalize d'.find (f'.path steps) = found
  split
  · exact .ok rfl
  · exact .error _ _
  · exact .ok rfl

theorem alike_read (h : d.Copies f d' f') (hsteps : Inside steps) :
    Alike Fault.IsTooLong Eq (d.read (f.path steps)) (d'.read (f'.path steps)) := by
  have hlate {d : Disk} {p : String} (hfind : d.find p = .error .nameTooLong) :
      ∃ e, d.read p = .error e ∧ e.IsTooLong := by
    rw [read, hfind]
    exact ⟨_, rfl, rfl⟩
  refine h.alike_of_find hsteps (fun heq => ?_) hlate hlate
  rw [read, read, heq]
  generalize d'.find (f'.path steps) = found
  split
  · exact .ok rfl
  · exact .error _ _
  · exact .error _ _

theorem alike_entriesAt (h : d.Copies f d' f') (hsteps : Inside steps) :
    Alike Fault.IsTooLong Eq (d.entriesAt (f.path steps)) (d'.entriesAt (f'.path steps)) := by
  have hlate {d : Disk} {p : String} (hfind : d.find p = .error .nameTooLong) :
      ∃ e, d.entriesAt p = .error e ∧ e.IsTooLong := by
    rw [entriesAt, hfind]
    exact ⟨_, rfl, rfl⟩
  refine h.alike_of_find hsteps (fun heq => ?_) hlate hlate
  rw [entriesAt, entriesAt, heq]
  generalize d'.find (f'.path steps) = found
  split
  · exact .ok rfl
  · exact .error _ _
  · exact .ok rfl

end Copies

end Disk

end ApiOutline
