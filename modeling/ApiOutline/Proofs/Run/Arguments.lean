import ApiOutline.Arguments
import ApiOutline.Proofs.Outcome

/-!
# Arguments that are not followed

Arguments that make no sense, or that ask for help, are refused as they are taken apart, before any
program looks at them, and for no other reason (`early_of_parse`). What was taken apart may still
ask for something without saying what: `--` is never a value, so an option with `--` after its
equals sign is given no text (`Textless`). A program that needs the text refuses such arguments.
-/

namespace ApiOutline

namespace Arguments

/-- The arguments are refused as they are taken apart. -/
def Refusal.Early (refusal : Refusal) : Prop :=
  refusal = .misuse ∨ refusal = .help

/-- The arguments can be taken apart, and what `option` was given last is no text. -/
def Textless (spec : Spec) (args : List String) (option : String) : Prop :=
  ∃ requests, parse spec args = .ok requests ∧ lastGiven requests option = some none

variable {spec : Spec} {refusal : Refusal}

/-! ### Telling arguments apart -/

private theorem eq_misuse_of_markShort {arg : String} (h : markShort spec arg = .error refusal) :
    refusal = .misuse := by
  rw [markShort] at h
  split at h
  · cases h
  · cases h
  · exact (Except.error.inj h).symm

private theorem eq_misuse_of_mark {arg : String} (h : mark spec arg = .error refusal) :
    refusal = .misuse := by
  rw [mark] at h
  split at h
  · cases h
  split at h
  · cases h
  split at h
  · cases h
  -- an option that is not written in full
  split at h
  · split at h
    · cases h
    · exact eq_misuse_of_markShort h
  · exact eq_misuse_of_markShort h

private theorem eq_misuse_of_marks {args : List String} (h : marks spec args = .error refusal) :
    refusal = .misuse := by
  induction args with
  | nil => cases h
  | cons arg rest ih =>
    rw [marks] at h
    split at h
    · cases h
    · rcases Except.bind_eq_error_iff.mp h with h | ⟨first, -, h⟩
      · exact eq_misuse_of_mark h
      · rcases Except.bind_eq_error_iff.mp h with h | ⟨others, -, h⟩
        · exact ih h
        · cases h

/-! ### Following them -/

private theorem early_helpRefusal (name : String) (text : Option String) :
    (helpRefusal name text).Early := by
  unfold helpRefusal
  split
  · exact .inr rfl
  · split
    · exact .inr rfl
    · exact .inl rfl

@[simp]
theorem adding_eq_error_iff {request : Request} {followed : Except Refusal (List Request × Bool)} :
    adding request followed = .error refusal ↔ followed = .error refusal :=
  Except.map_eq_error_iff

@[simp]
theorem sparing_eq_error_iff {followed : Except Refusal (List Request × Bool)} :
    sparing followed = .error refusal ↔ followed = .error refusal :=
  Except.map_eq_error_iff

/-- Whatever follows, an option is refused only as a plea for help or as a wrong use. -/
private theorem early_of_follow {free : Bool} {marks : List Mark}
    (h : follow spec free marks = .error refusal) : refusal.Early := by
  fun_induction follow spec free marks with
  | case1 | case3 => cases h
  | case9 free name explicit =>
    rw [← Except.error.inj h]
    exact early_helpRefusal name explicit
  | case10 | case14 => exact .inl (Except.error.inj h).symm
  | _ =>
    -- the first argument is taken, and one of the others is refused
    simp_all

/-- **A refusal while the arguments are taken apart** is one of misuse or a plea for help. -/
theorem early_of_parse {args : List String} (h : parse spec args = .error refusal) :
    refusal.Early := by
  rw [parse] at h
  rcases Except.bind_eq_error_iff.mp h with h | ⟨marks, -, h⟩
  · exact .inl (eq_misuse_of_marks h)
  · rcases Except.bind_eq_error_iff.mp h with h | ⟨⟨requests, spare⟩, -, h⟩
    · exact early_of_follow h
    · cases spare with
      | true => exact .inl (Except.error.inj h).symm
      | false => cases h

theorem logLevel_eq_error_iff {requests : List Request} :
    logLevel requests = .error refusal ↔
      refusal = .noLevel ∧ lastGiven requests "--log-level" = some none := by
  rw [logLevel]
  split
  · next h => simp [h]
  · next h => simp [h]
  · next h => simp [h, eq_comm]

end Arguments

end ApiOutline
