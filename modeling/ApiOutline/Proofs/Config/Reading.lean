import ApiOutline.Proofs.Json.Limits
import ApiOutline.Proofs.Project.Answers

/-!
# What is read of a configuration file

Eight things can come of a file that is to hold a configuration (`Finds`). It holds an object. Or it
is missing, blank, not JSON, or another value than an object, which is a problem that the mode
settles. Or it cannot be opened, is not UTF-8, or passes a limit of the reader, and that is a
failure in either mode.

One of the eight always comes of a file (`exists_finds`), and the loader does in each mode what it
says (`Finds.result_load`). So a lenient loader gives an object exactly if the file is *legible*: it
is missing, or its text can be told and fits the reader. Strict mode gives the same object then, or
ends with a problem of the configuration. Of any other file both modes end with one failure, which
is no such problem (`load_legible`).
-/

namespace ApiOutline

/-! ### Blank texts -/

private theorem Json.isSmall_of_isBlankText {text : String} (h : Text.isBlankText text = true)
    (room : Nat) : IsSmall room text.toList := by
  have hblank : ∀ c ∈ text.toList, Text.isBlank c = true := List.all_eq_true.mp h
  have hopenings : text.toList.countP isOpening = 0 := by
    refine List.countP_eq_zero.mpr fun c hc hopening => ?_
    have hmark : c = '[' ∨ c = '\x7b' := by simpa [isOpening] using hopening
    rcases hmark with rfl | rfl
    · exact absurd (hblank _ hc) (by decide)
    · exact absurd (hblank _ hc) (by decide)
  have hdigits : text.toList.countP Char.isDigit = 0 := by
    refine List.countP_eq_zero.mpr fun c hc hdigit => ?_
    have hkept := hblank c hc
    rw [isBlank_of_isScalarChar (isScalarChar_of_isDigit hdigit)] at hkept
    cases hkept
  exact ⟨hopenings ▸ Nat.zero_le _, hdigits ▸ Nat.zero_le _⟩

namespace Config

variable {d : Disk} {path : String} {comments : Bool}

/-! ### Findings -/

/-- What comes of a file that is to hold a configuration. -/
inductive Finding where
  | object (fields : Json.Fields)
  | faulty (problem : Problem)
  | broken (failure : Failure)

/-- What a loader makes of it. -/
def Finding.settle (strict : Bool) : Finding → Except Failure Json.Fields
  | .object fields => .ok fields
  | .faulty problem => if strict then .error (.config problem) else .ok []
  | .broken failure => .error failure

/-- The text in a file, without its comments if comments are allowed in it. -/
def PlainText (d : Disk) (path : String) (comments : Bool) (plain : String) : Prop :=
  ∃ file text, d.read path = .ok file ∧ file.text = .ok text ∧
    plain = if comments then Json.stripComments text else text

/-- What comes of the file at a path, by what stands there and in its text. -/
inductive Finds (d : Disk) (path : String) (comments : Bool) : Finding → Prop
  | missing {fault : Disk.Fault} (h : d.read path = .error fault)
      (hcause : fault.cause = .notFound) :
      Finds d path comments (.faulty (.missingFile path))
  | unopened {fault : Disk.Fault} (h : d.read path = .error fault)
      (hcause : fault.cause ≠ .notFound) :
      Finds d path comments (.broken (.disk fault))
  | undecoded {file : File} {fault : Utf8.Fault} (hfile : d.read path = .ok file)
      (h : file.text = .error fault) :
      Finds d path comments (.broken (.encoding fault))
  | blank {plain : String} (hplain : PlainText d path comments plain)
      (h : Text.isBlankText plain = true) :
      Finds d path comments (.faulty (.emptyFile path))
  | malformed {plain : String} {fault : Json.Fault} (hplain : PlainText d path comments plain)
      (hblank : Text.isBlankText plain = false)
      (h : Json.readWithin d.limits.nesting plain = .error fault)
      (hfault : fault.isMalformed = true) :
      Finds d path comments (.faulty (.malformed path fault))
  | unfit {plain : String} {fault : Json.Fault} (hplain : PlainText d path comments plain)
      (h : Json.readWithin d.limits.nesting plain = .error fault)
      (hfault : fault.isMalformed = false) :
      Finds d path comments (.broken (.json fault))
  | other {plain : String} {value : Json} (hplain : PlainText d path comments plain)
      (h : Json.readWithin d.limits.nesting plain = .ok value)
      (hvalue : ∀ fields, value ≠ .obj fields) :
      Finds d path comments (.faulty (.notObject path value.kindName))
  | object {plain : String} {fields : Json.Fields} (hplain : PlainText d path comments plain)
      (h : Json.readWithin d.limits.nesting plain = .ok (.obj fields)) :
      Finds d path comments (.object fields)

/-- **Something comes of every file.** -/
theorem exists_finds (d : Disk) (path : String) (comments : Bool) :
    ∃ finding, Finds d path comments finding := by
  cases hfile : d.read path with
  | error fault =>
    by_cases hcause : fault.cause = .notFound
    · exact ⟨_, .missing hfile hcause⟩
    · exact ⟨_, .unopened hfile hcause⟩
  | ok file =>
    cases htext : file.text with
    | error fault => exact ⟨_, .undecoded hfile htext⟩
    | ok text =>
      have hplain : PlainText d path comments _ := ⟨file, text, hfile, htext, rfl⟩
      cases hread : Json.readWithin d.limits.nesting
          (if comments then Json.stripComments text else text) with
      | error fault =>
        cases hfault : fault.isMalformed with
        | false => exact ⟨_, .unfit hplain hread hfault⟩
        | true =>
          cases hblank : Text.isBlankText (if comments then Json.stripComments text else text) with
          | false => exact ⟨_, .malformed hplain hblank hread hfault⟩
          | true => exact ⟨_, .blank hplain hblank⟩
      | ok value =>
        by_cases hvalue : ∃ fields, value = .obj fields
        · obtain ⟨fields, rfl⟩ := hvalue
          exact ⟨_, .object hplain hread⟩
        · exact ⟨_, .other hplain hread fun fields h => hvalue ⟨fields, h⟩⟩

theorem Finds.holds {fields : Json.Fields} (h : Finds d path comments (.object fields)) :
    Holds d.limits.nesting d path comments fields := by
  cases h with
  | object hplain h =>
    obtain ⟨file, text, hfile, htext, rfl⟩ := hplain
    exact ⟨file, text, hfile, htext, h⟩

private theorem Finds.of_holds {fields : Json.Fields}
    (h : Holds d.limits.nesting d path comments fields) :
    Finds d path comments (.object fields) := by
  obtain ⟨file, text, hfile, htext, hread⟩ := h
  exact .object ⟨file, text, hfile, htext, rfl⟩ hread

/-! ### Loading -/

/-- A file whose text can be told is loaded as this text is. -/
private theorem load_of_plainText {plain : String} (h : PlainText d path comments plain)
    (strict : Bool) :
    load d path strict comments =
      if Text.isBlankText plain then .settle strict (.emptyFile path) []
      else
        match Json.readWithin d.limits.nesting plain with
        | .ok (.obj fields) => .ok fields
        | .ok value => .settle strict (.notObject path value.kindName) []
        | .error (.malformed problem offset line column) =>
          .settle strict (.malformed path (.malformed problem offset line column)) []
        | .error fault => .fail (.json fault) := by
  obtain ⟨file, text, hfile, htext, rfl⟩ := h
  rw [load, loadWithin, hfile]
  dsimp only
  rw [htext]
  rfl

private theorem result_settle_eq (strict : Bool) (problem : Problem) :
    (Outcome.settle strict problem ([] : Json.Fields)).result =
      Finding.settle strict (.faulty problem) := by
  cases strict <;> rfl

/-- **The loader** does what comes of the file says. -/
theorem Finds.result_load {finding : Finding} (h : Finds d path comments finding)
    (strict : Bool) : (load d path strict comments).result = finding.settle strict := by
  cases h with
  | @missing fault h hcause =>
    obtain ⟨cause, at_⟩ := fault
    obtain rfl : cause = .notFound := hcause
    rw [load, loadWithin, h]
    exact result_settle_eq strict _
  | @unopened fault h hcause =>
    rw [load, loadWithin, h]
    split
    · next heq =>
      obtain rfl := Except.error.inj heq
      exact absurd rfl hcause
    · next heq =>
      rw [← Except.error.inj heq]
      rfl
    · next heq => cases heq
  | undecoded hfile h =>
    rw [load, loadWithin, hfile]
    dsimp only
    rw [h]
    rfl
  | blank hplain h =>
    rw [load_of_plainText hplain, if_pos h]
    exact result_settle_eq strict _
  | malformed hplain hblank h hfault =>
    rw [load_of_plainText hplain, if_neg (by simp [hblank]), h]
    cases ‹Json.Fault› with
    | malformed => exact result_settle_eq strict _
    | _ => cases hfault
  | @unfit plain fault hplain h hfault =>
    -- a blank text passes no limit
    have hblank : Text.isBlankText plain ≠ true := by
      intro hblank
      rw [Json.fits_of_isSmall (Json.isSmall_of_isBlankText hblank _) fault h] at hfault
      cases hfault
    rw [load_of_plainText hplain, if_neg hblank, h]
    cases fault with
    | malformed => cases hfault
    | _ => rfl
  | @other plain value hplain h hvalue =>
    rw [load_of_plainText hplain, if_neg (by simp [Json.isBlankText_of_readWithin h]), h]
    cases value with
    | obj fields => exact absurd rfl (hvalue fields)
    | _ => exact result_settle_eq strict _
  | object hplain h =>
    rw [load_of_plainText hplain, if_neg (by simp [Json.isBlankText_of_readWithin h]), h]
    rfl

/-! ### Legible files -/

/-- A file is missing, or its text can be told and passes no limit of the reader. -/
def Legible (d : Disk) (path : String) (comments : Bool) : Prop :=
  (∃ fault, d.read path = .error fault ∧ fault.cause = .notFound) ∨
    ∃ plain, PlainText d path comments plain ∧ Json.Fits d.limits.nesting plain

theorem PlainText.eq {plain plain' : String} (h : PlainText d path comments plain)
    (h' : PlainText d path comments plain') : plain = plain' := by
  obtain ⟨file, text, hfile, htext, rfl⟩ := h
  obtain ⟨file', text', hfile', htext', rfl⟩ := h'
  obtain rfl : file = file' := Except.ok.inj (hfile.symm.trans hfile')
  obtain rfl : text = text' := Except.ok.inj (htext.symm.trans htext')
  rfl

/-- A file whose text can be told is legible exactly if that fits the reader. -/
theorem PlainText.legible_iff {plain : String} (h : PlainText d path comments plain) :
    Legible d path comments ↔ Json.Fits d.limits.nesting plain := by
  constructor
  · rintro (⟨fault, hfault, -⟩ | ⟨plain', hplain', hfits⟩)
    · obtain ⟨file, -, hfile, -⟩ := h
      rw [hfile] at hfault
      cases hfault
    · rwa [h.eq hplain']
  · intro hfits
    exact .inr ⟨plain, h, hfits⟩

/-- **Legible files** are those that are not broken. -/
theorem Finds.legible_iff {finding : Finding} (h : Finds d path comments finding) :
    Legible d path comments ↔ ∀ failure, finding ≠ .broken failure := by
  cases h with
  | @missing fault h hcause => exact iff_of_true (.inl ⟨fault, h, hcause⟩) nofun
  | @unopened fault h hcause =>
    refine iff_of_false ?_ fun hne => hne _ rfl
    rintro (⟨fault', hfault', hcause'⟩ | ⟨plain, ⟨file, _, hfile, _⟩, -⟩)
    · rw [h] at hfault'
      exact hcause (Except.error.inj hfault' ▸ hcause')
    · rw [h] at hfile
      cases hfile
  | @undecoded file fault hfile h =>
    refine iff_of_false ?_ fun hne => hne _ rfl
    rintro (⟨fault', hfault', -⟩ | ⟨plain, ⟨file', text, hfile', htext, -⟩, -⟩)
    · rw [hfile] at hfault'
      cases hfault'
    · obtain rfl : file = file' := Except.ok.inj (hfile.symm.trans hfile')
      rw [h] at htext
      cases htext
  | blank hplain h =>
    exact iff_of_true
      (hplain.legible_iff.mpr (Json.fits_of_isSmall (Json.isSmall_of_isBlankText h _))) nofun
  | malformed hplain hblank h hfault =>
    refine iff_of_true (hplain.legible_iff.mpr fun fault' h' => ?_) nofun
    rwa [← Except.error.inj (h.symm.trans h')]
  | unfit hplain h hfault =>
    refine iff_of_false (fun hlegible => ?_) fun hne => hne _ rfl
    rw [hplain.legible_iff.mp hlegible _ h] at hfault
    cases hfault
  | other hplain h hvalue =>
    refine iff_of_true (hplain.legible_iff.mpr fun fault' h' => ?_) nofun
    rw [h] at h'
    cases h'
  | object hplain h =>
    refine iff_of_true (hplain.legible_iff.mpr fun fault' h' => ?_) nofun
    rw [h] at h'
    cases h'

/-- What breaks the loading of a file is no problem of the configuration. -/
theorem Finds.ne_config {failure : Failure} (h : Finds d path comments (.broken failure))
    (problem : Problem) : failure ≠ .config problem := by
  cases h <;> exact nofun

/-- **The loaders give an object or a problem** of exactly the files that are legible. Of these the
lenient loader gives what the file holds, if it holds an object, and strict mode gives the same;
otherwise it gives no settings, and strict mode ends with a problem of the configuration. Of a file
that is not legible both end with the same failure, which is no such problem. A file whose text is
small is legible. -/
theorem load_legible (d : Disk) (path : String) (comments : Bool) :
    (Legible d path comments ↔ ∃ fields, (load d path false comments).result = .ok fields) ∧
      (Legible d path comments →
        (∃ fields, Holds d.limits.nesting d path comments fields ∧
          ∀ strict, (load d path strict comments).result = .ok fields) ∨
        (∀ fields, ¬Holds d.limits.nesting d path comments fields) ∧
          (load d path false comments).result = .ok [] ∧
          ∃ problem, (load d path true comments).result = .error (.config problem)) ∧
      (¬Legible d path comments → ∃ failure, (∀ problem, failure ≠ .config problem) ∧
        ∀ strict, (load d path strict comments).result = .error failure) ∧
      ∀ plain, PlainText d path comments plain → Json.IsSmall d.limits.nesting plain.toList →
        Legible d path comments := by
  obtain ⟨finding, h⟩ := exists_finds d path comments
  have hload := h.result_load
  refine ⟨?_, fun hlegible => ?_, fun hillegible => ?_, fun plain hplain hsmall => ?_⟩
  · rw [h.legible_iff, hload false]
    cases finding with
    | object fields => exact iff_of_true nofun ⟨fields, rfl⟩
    | faulty problem => exact iff_of_true nofun ⟨[], rfl⟩
    | broken failure => exact iff_of_false (fun hne => hne _ rfl) (by rintro ⟨_, ⟨⟩⟩)
  · cases finding with
    | object fields => exact .inl ⟨fields, h.holds, hload⟩
    | faulty problem =>
      refine .inr ⟨fun fields hholds => ?_, hload false, problem, hload true⟩
      have hobject := (Finds.of_holds hholds).result_load true
      rw [hload true] at hobject
      cases hobject
    | broken failure => exact absurd rfl (h.legible_iff.mp hlegible failure)
  · cases finding with
    | broken failure => exact ⟨failure, h.ne_config, hload⟩
    | _ => exact absurd (h.legible_iff.mpr nofun) hillegible
  · exact hplain.legible_iff.mpr (Json.fits_of_isSmall hsmall)

/-- One byte that is not UTF-8 breaks the loading. -/
example : (load ⟨[("c.json", .file ⟨[0xFF], none, none⟩)], "/", .uniform 8⟩ "/c.json" false
    false).result.isOk = false := by
  decide +kernel

end Config

end ApiOutline
