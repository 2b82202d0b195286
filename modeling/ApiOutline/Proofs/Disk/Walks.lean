import ApiOutline.Disk.Basic
import Mathlib.Tactic.SplitIfs

/-!
# Where walks lead

A walk takes one segment after the other. What it can do with a segment is said once (`Advance`),
and so is how links are followed (`Travels`); what is shown of where walks lead is shown along these
two.

A walk goes from place to place by two steps only, up to the folder above and into an entry. So a
property of places that both steps keep (`Place.Kept`) holds wherever a path leads, also through
links (`holds_of_travel`).
-/

namespace ApiOutline

/-- What goes by a name among some entries is one of them. -/
theorem Item.mem_of_lookup {entries : List (String × Item)} {name : String} {item : Item}
    (h : entries.lookup name = some item) : (name, item) ∈ entries := by
  obtain ⟨front, back, hsplit, -⟩ := List.lookup_eq_some_iff.mp h
  simp [hsplit]

namespace Disk

variable {d : Disk} {purpose : Purpose} {here : Place} {segment : String} {rest : List String}

/-! ### One segment -/

/-- Whether a walk stays where it is at a segment. -/
def IsSkipped (segment : String) : Prop :=
  segment = "" ∨ segment = "."

theorem isSkipped_iff : IsSkipped segment ↔ (segment = "" || segment = ".") = true := by
  simp [IsSkipped]

/-- A segment that is looked for among the entries of a folder. -/
structure IsLookedFor (segment : String) : Prop where
  not_skipped : ¬IsSkipped segment
  ne_up : segment ≠ ".."
  short : byteSize segment ≤ maxName

/-- What a walk does with its first segment, in a folder with the given entries, when it comes to a
stretch in the end. -/
inductive Advance (purpose : Purpose) (here : Place) (entries : List (String × Item))
    (segment : String) (rest : List String) : Stretch → Prop
  | skip {stretch : Stretch} (hskip : IsSkipped segment)
      (h : walk purpose here rest = .ok stretch) : Advance purpose here entries segment rest stretch
  | up {stretch : Stretch} (hup : segment = "..") (h : walk purpose here.up rest = .ok stretch) :
      Advance purpose here entries segment rest stretch
  | gap (hname : IsLookedFor segment) (hlookup : entries.lookup (canonical segment) = none)
      (hrest : rest = []) : Advance purpose here entries segment rest (.goal (.gap here segment))
  | last {target : String} (hpurpose : purpose = .entry) (hrest : rest = [])
      (hlookup : entries.lookup (canonical segment) = some (.link target)) :
      Advance purpose here entries segment rest
        (.goal (.there ⟨.link target, (segment, entries) :: here.above⟩))
  | link {target : String} (hname : IsLookedFor segment)
      (hlookup : entries.lookup (canonical segment) = some (.link target)) :
      Advance purpose here entries segment rest (.link here target rest)
  | enter {item : Item} {stretch : Stretch} (hname : IsLookedFor segment)
      (hlookup : entries.lookup (canonical segment) = some item)
      (hlink : ∀ target, item ≠ .link target)
      (h : walk purpose ⟨item, (segment, entries) :: here.above⟩ rest = .ok stretch) :
      Advance purpose here entries segment rest stretch

/-- **A walk that comes to a stretch** has gone on with its first segment in a folder. -/
theorem exists_advance {stretch : Stretch}
    (h : walk purpose here (segment :: rest) = .ok stretch) :
    ∃ entries, here.item = .folder entries ∧ Advance purpose here entries segment rest stretch := by
  rw [walk] at h
  split at h
  · next entries hentries =>
    refine ⟨entries, hentries, ?_⟩
    split at h
    · next hskip => exact .skip (isSkipped_iff.mpr hskip) h
    next hskip =>
    split at h
    · next hup => exact .up hup h
    next hup =>
    split at h
    · cases h
    split at h
    · cases h
    next hlong =>
    have hname : IsLookedFor segment :=
      ⟨mt isSkipped_iff.mp hskip, hup, Nat.le_of_not_lt hlong⟩
    split at h
    · next hlookup =>
      split at h
      · next hrest => exact Except.ok.inj h ▸ .gap hname hlookup (List.isEmpty_iff.mp hrest)
      · cases h
    · next target hlookup =>
      split at h
      · next hend =>
        simp only [Bool.and_eq_true, decide_eq_true_eq, List.isEmpty_iff] at hend
        exact Except.ok.inj h ▸ .last hend.1 hend.2 hlookup
      · exact Except.ok.inj h ▸ .link hname hlookup
    · next item hlink hlookup => exact .enter hname hlookup hlink h
  · cases h

section

variable {entries : List (String × Item)} (hentries : here.item = .folder entries)

include hentries

theorem walk_of_isSkipped (h : IsSkipped segment) :
    walk purpose here (segment :: rest) = walk purpose here rest := by
  rw [walk, hentries]
  exact if_pos (isSkipped_iff.mp h)

theorem walk_of_up (h : segment = "..") :
    walk purpose here (segment :: rest) = walk purpose here.up rest := by
  rw [walk, hentries, h]
  rfl

/-- A segment that is neither skipped nor a step up is looked for among the entries. -/
private theorem walk_look_cons (hskip : ¬IsSkipped segment) (hup : segment ≠ "..") :
    walk .look here (segment :: rest) =
      if maxName < byteSize segment then .error .nameTooLong
      else
        match entries.lookup (canonical segment) with
        | none => if rest.isEmpty then .ok (.goal (.gap here segment)) else .error .notFound
        | some (.link target) => .ok (.link here target rest)
        | some item => walk .look ⟨item, (segment, entries) :: here.above⟩ rest := by
  have hwrite : ¬(decide (Purpose.look = .write) && !rest.isEmpty && rest.all (· = "")) = true := by
    simp
  rw [walk, hentries]
  dsimp only
  rw [if_neg (mt isSkipped_iff.mpr hskip), if_neg hup, if_neg hwrite]
  rcases entries.lookup (canonical segment) with _ | (_ | _ | _) <;> rfl

theorem walk_look_of_long (hskip : ¬IsSkipped segment) (hup : segment ≠ "..")
    (hlong : maxName < byteSize segment) :
    walk .look here (segment :: rest) = .error .nameTooLong := by
  rw [walk_look_cons hentries hskip hup, if_pos hlong]

theorem walk_look_of_isLookedFor (h : IsLookedFor segment) :
    walk .look here (segment :: rest) =
      match entries.lookup (canonical segment) with
      | none => if rest.isEmpty then .ok (.goal (.gap here segment)) else .error .notFound
      | some (.link target) => .ok (.link here target rest)
      | some item => walk .look ⟨item, (segment, entries) :: here.above⟩ rest := by
  rw [walk_look_cons hentries h.not_skipped h.ne_up, if_neg (Nat.not_lt.mpr h.short)]

theorem walk_look_of_lookup (h : IsLookedFor segment) {item : Item}
    (hlookup : entries.lookup (canonical segment) = some item)
    (hlink : ∀ target, item ≠ .link target) :
    walk .look here (segment :: rest) =
      walk .look ⟨item, (segment, entries) :: here.above⟩ rest := by
  rw [walk_look_of_isLookedFor hentries h, hlookup]
  cases item with
  | link target => exact absurd rfl (hlink target)
  | _ => rfl

end

/-! ### Links -/

/-- Segments lead to a goal through at most so many links: at once, or from the first link on. -/
inductive Travels (d : Disk) (purpose : Purpose) (g : Goal) : Nat → Place → List String → Prop
  | goal {links : Nat} {here : Place} {segments : List String}
      (hwalk : walk purpose here segments = .ok (.goal g)) : Travels d purpose g links here segments
  | link {links : Nat} {here folder : Place} {target : String} {segments rest : List String}
      (hwalk : walk purpose here segments = .ok (.link folder target rest))
      (h : Travels d purpose g links (if Path.isAbsolute target then d.root else folder)
        (Path.segments (canonical target) ++ rest)) :
      Travels d purpose g (links + 1) here segments

theorem travels_of_travel {links : Nat} {segments : List String} {g : Goal}
    (h : d.travel purpose links here segments = .ok g) :
    Travels d purpose g links here segments := by
  induction links generalizing here segments with
  | zero =>
    rw [travel] at h
    split at h
    · cases h
    · next hwalk => exact Except.ok.inj h ▸ .goal hwalk
    · cases h
  | succ links ih =>
    rw [travel] at h
    split at h
    · cases h
    · next hwalk => exact Except.ok.inj h ▸ .goal hwalk
    · next hwalk => exact .link hwalk (ih h)

/-- Where no link is met, there is nothing more to walk. -/
theorem travel_of_goal {segments : List String} {g : Goal}
    (h : walk purpose here segments = .ok (.goal g)) (links : Nat) :
    d.travel purpose links here segments = .ok g := by
  cases links <;> rw [travel, h]

/-- A link goes on from the root or from the folder that it stands in. -/
theorem travel_of_link {segments : List String} {folder : Place} {target : String}
    (h : walk purpose here segments = .ok (.link folder target rest)) (links : Nat) :
    d.travel purpose (links + 1) here segments =
      d.travel purpose links (if Path.isAbsolute target then d.root else folder)
        (Path.segments (canonical target) ++ rest) := by
  rw [travel, h]

/-! ### What the steps keep -/

/-- Going up and going into an entry keep a property of places. A link is gone into only where the
entry at the end of a path is handled. -/
structure Place.Kept (purpose : Purpose) (P : Place → Prop) : Prop where
  up : ∀ {here : Place}, P here → P here.up
  enter : ∀ {here : Place} {entries : List (String × Item)} {segment : String} {item : Item},
    P here → here.item = .folder entries → entries.lookup (canonical segment) = some item →
    (purpose ≠ .entry → ∀ target, item ≠ .link target) →
    P ⟨item, (segment, entries) :: here.above⟩

/-- A property holds of the place that a path leads to, or of the folder that has no entry. -/
def Goal.Holds (P : Place → Prop) : Goal → Prop
  | .there place => P place
  | .gap folder segment => P folder ∧
      ∃ entries, folder.item = .folder entries ∧ entries.lookup (canonical segment) = none

/-- A property holds of the place up to which segments lead. -/
def Stretch.Holds (P : Place → Prop) : Stretch → Prop
  | .goal g => g.Holds P
  | .link folder _ _ => P folder

variable {P : Place → Prop}

private theorem holds_of_walk (hkept : Place.Kept purpose P) {segments : List String}
    {stretch : Stretch}
    (h : P here) (hwalk : walk purpose here segments = .ok stretch) : stretch.Holds P := by
  induction segments generalizing here with
  | nil =>
    obtain rfl := Except.ok.inj hwalk
    exact h
  | cons segment rest ih =>
    obtain ⟨entries, hentries, hadvance⟩ := exists_advance hwalk
    cases hadvance with
    | skip _ hrest => exact ih h hrest
    | up _ hrest => exact ih (hkept.up h) hrest
    | gap _ hlookup _ => exact ⟨h, entries, hentries, hlookup⟩
    | last hpurpose _ hlookup =>
      exact hkept.enter h hentries hlookup fun hne => absurd hpurpose hne
    | link _ _ => exact h
    | enter _ hlookup hlink hrest =>
      exact ih (hkept.enter h hentries hlookup fun _ target => hlink target) hrest

/-- **Wherever a path leads**, a property holds that holds of the root and that both steps keep. -/
theorem holds_of_travel (hkept : Place.Kept purpose P) (hroot : P d.root) {links : Nat}
    {segments : List String} {g : Goal} (h : P here)
    (htravel : d.travel purpose links here segments = .ok g) : g.Holds P := by
  replace htravel := travels_of_travel htravel
  induction htravel with
  | goal hwalk => exact holds_of_walk hkept h hwalk
  | link hwalk _ ih =>
    refine ih ?_
    split_ifs
    · exact hroot
    · exact holds_of_walk hkept h hwalk

end Disk

end ApiOutline
