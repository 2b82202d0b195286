import ApiOutline.Config.Load
import ApiOutline.Proofs.Outcome

/-!
# Reading with more room

A reader that has room for more nested containers differs from one with less room only where the
latter refuses a text for its depth. `AgreesUp` relates the two readings, and the operations from
which readers are built respect it, so the statement for the three readers that call one another
is one induction over their nesting. For configuration files it says that a file which loads in
little room loads in more room with the same settings (`result_loadWithin_of_le`).
-/

namespace ApiOutline

namespace Json

/-! ### Readings in less and in more room -/

/-- The second reading is the first one, unless the first was refused for its depth. -/
def AgreesUp {α : Type} (less more : Except Stop α) : Prop :=
  (∃ container, less = .error (.tooDeep container)) ∨ more = less

namespace AgreesUp

variable {α β : Type} {less more : Except Stop α}

theorem refl (x : Except Stop α) : AgreesUp x x :=
  .inr rfl

theorem map (h : AgreesUp less more) (f : α → β) : AgreesUp (less.map f) (more.map f) := by
  rcases h with ⟨container, rfl⟩ | rfl
  · exact .inl ⟨container, rfl⟩
  · exact refl _

theorem bind (h : AgreesUp less more) {f g : α → Except Stop β}
    (hfg : ∀ a, AgreesUp (f a) (g a)) : AgreesUp (less >>= f) (more >>= g) := by
  rcases h with ⟨container, rfl⟩ | rfl
  · exact .inl ⟨container, rfl⟩
  · cases more with
    | error stop => exact refl _
    | ok a => exact hfg a

end AgreesUp

/-! ### The readers -/

section

variable {room room' : Nat}

private theorem agreesUp_readValue_succ {fuel : Nat} (hroom : room ≤ room')
    (hitems : ∀ {room room' : Nat}, room ≤ room' →
      ∀ cs, AgreesUp (readItems fuel room cs) (readItems fuel room' cs))
    (hfields : ∀ {room room' : Nat}, room ≤ room' →
      ∀ cs, AgreesUp (readFields fuel room cs) (readFields fuel room' cs)) (cs : List Char) :
    AgreesUp (readValue (fuel + 1) room cs) (readValue (fuel + 1) room' cs) := by
  have hpred : room - 1 ≤ room' - 1 := by omega
  rw [readValue.eq_def, readValue.eq_def]
  dsimp only
  split
  · exact .refl _
  · -- an array takes one place
    by_cases hzero : room = 0
    · exact .inl ⟨.array, if_pos hzero⟩
    · rw [if_neg hzero, if_neg (by omega)]
      split
      · exact .refl _
      · exact (hitems hpred _).map _
  · -- and so does an object
    by_cases hzero : room = 0
    · exact .inl ⟨.object, if_pos hzero⟩
    · rw [if_neg hzero, if_neg (by omega)]
      split
      · exact .refl _
      · exact (hfields hpred _).map _
  · exact .refl _

private theorem agreesUp_readItems_succ {fuel : Nat}
    (hvalue : ∀ cs, AgreesUp (readValue fuel room cs) (readValue fuel room' cs))
    (hitems : ∀ cs, AgreesUp (readItems fuel room cs) (readItems fuel room' cs))
    (cs : List Char) :
    AgreesUp (readItems (fuel + 1) room cs) (readItems (fuel + 1) room' cs) := by
  rw [readItems.eq_def, readItems.eq_def]
  refine (hvalue cs).bind fun ⟨item, left⟩ => ?_
  dsimp only
  split
  · exact .refl _
  · exact (hitems _).bind fun _ => .refl _
  · exact .refl _

private theorem agreesUp_readFields_succ {fuel : Nat}
    (hvalue : ∀ cs, AgreesUp (readValue fuel room cs) (readValue fuel room' cs))
    (hfields : ∀ cs, AgreesUp (readFields fuel room cs) (readFields fuel room' cs))
    (cs : List Char) :
    AgreesUp (readFields (fuel + 1) room cs) (readFields (fuel + 1) room' cs) := by
  rw [readFields.eq_def, readFields.eq_def]
  dsimp only
  split
  · refine (AgreesUp.refl _).bind fun ⟨name, left⟩ => ?_
    dsimp only
    split
    · refine (hvalue _).bind fun ⟨value, left⟩ => ?_
      dsimp only
      split
      · exact .refl _
      · exact (hfields _).bind fun _ => .refl _
      · exact .refl _
    · exact .refl _
  · exact .refl _

/-- **More room** changes a reading only where there was too little. -/
theorem agreesUp_readers (fuel : Nat) : ∀ {room room' : Nat}, room ≤ room' →
    (∀ cs, AgreesUp (readValue fuel room cs) (readValue fuel room' cs)) ∧
    (∀ cs, AgreesUp (readItems fuel room cs) (readItems fuel room' cs)) ∧
    ∀ cs, AgreesUp (readFields fuel room cs) (readFields fuel room' cs) := by
  -- each reader calls the others with one nesting less
  induction fuel with
  | zero => exact fun _ => ⟨fun _ => .refl _, fun _ => .refl _, fun _ => .refl _⟩
  | succ fuel ih =>
    intro room room' hroom
    obtain ⟨hvalue, hitems, hfields⟩ := ih hroom
    exact ⟨agreesUp_readValue_succ hroom (fun h => (ih h).2.1) (fun h => (ih h).2.2),
      agreesUp_readItems_succ hvalue hitems, agreesUp_readFields_succ hvalue hfields⟩

private theorem agreesUp_readChars (hroom : room ≤ room') (cs : List Char) :
    AgreesUp (readChars room cs) (readChars room' cs) := by
  rw [readChars, readChars]
  split
  · exact .refl _
  · exact ((agreesUp_readers _ hroom).1 _).bind fun _ => .refl _

/-- A text that is not refused for its depth reads the same in more room. -/
private theorem readWithin_of_le (hroom : room ≤ room') {text : String}
    (h : ∀ container, readWithin room text ≠ .error (.tooDeep container)) :
    readWithin room' text = readWithin room text := by
  rw [readWithin, readWithin]
  rcases agreesUp_readChars hroom text.toList with ⟨container, hless⟩ | hsame
  · refine absurd ?_ (h container)
    rw [readWithin, hless]
    rfl
  · rw [hsame]

end

end Json

namespace Config

variable {room room' : Nat}

private theorem result_parse_of_le (hroom : room ≤ room') {path text : String}
    {strict comments : Bool}
    {fields : Json.Fields} (h : (parse room path text strict comments).result = .ok fields) :
    (parse room' path text strict comments).result = .ok fields := by
  simp only [parse] at h ⊢
  generalize (if comments = true then Json.stripComments text else text) = plain at h ⊢
  by_cases hblank : Text.isBlankText plain = true
  · rw [if_pos hblank] at h ⊢
    exact h
  · rw [if_neg hblank] at h ⊢
    -- a text refused for its depth is a failure, so it was not
    have hdepth (container : Json.Container) :
        Json.readWithin room plain ≠ .error (.tooDeep container) := by
      intro hdeep
      rw [hdeep] at h
      cases h
    rw [Json.readWithin_of_le hroom hdepth]
    exact h

/-- **A configuration that loads** in little room loads in more room with the same settings. -/
theorem result_loadWithin_of_le (hroom : room ≤ room') {d : Disk} {path : String}
    {strict comments : Bool} {fields : Json.Fields}
    (h : (loadWithin room d path strict comments).result = .ok fields) :
    (loadWithin room' d path strict comments).result = .ok fields := by
  rw [loadWithin] at h ⊢
  split at h
  · exact h
  · cases h
  · split at h
    · cases h
    · exact result_parse_of_le hroom h

end Config

end ApiOutline
