import ApiOutline.Proofs.Json.Stripping

/-!
# Texts within the limits

JSON puts no bound on how deep containers are nested or how many digits an integer has, but the
readers refuse a text that passes theirs. That is no fault of its grammar: a text that is not read
is either *malformed*, or it does not *fit*.

A container is opened by a mark and an integer is a run of digits, so a text that holds no more
marks and digits than the limits allow fits (`fits_of_isSmall`). This is shown of the three readers
that call one another by one induction over their nesting: what is left after a part is a suffix,
so it holds no more of either, and a container takes one mark and one place.
-/

namespace ApiOutline

namespace Json

/-! ### Refusals -/

/-- Whether a text is refused for what its grammar says. -/
def Fault.isMalformed : Fault → Bool
  | .malformed _ _ _ _ => true
  | .tooManyDigits _ | .tooDeep _ => false

/-- Whether a reader stops for what the grammar says. -/
def Stop.isMalformed : Stop → Bool
  | .malformed _ _ => true
  | .tooManyDigits _ | .tooDeep _ => false

private theorem Stop.isMalformed_locate (stop : Stop) (cs : List Char) :
    (stop.locate cs).isMalformed = stop.isMalformed := by
  cases stop <;> rfl

/-- A text passes neither limit of a reader with that much room for nested containers. -/
def Fits (room : Nat) (text : String) : Prop :=
  ∀ fault, readWithin room text = .error fault → fault.isMalformed = true

/-- A reading that stops does so for what the grammar says. -/
def Stop.OnlyMalformed {α : Type} (x : Except Stop α) : Prop :=
  ∀ stop, x = .error stop → stop.isMalformed = true

namespace Stop.OnlyMalformed

variable {α β : Type}

theorem ok (a : α) : OnlyMalformed (.ok a : Except Stop α) :=
  nofun

theorem malformed (problem : Problem) (left : List Char) :
    OnlyMalformed (.error (.malformed problem left) : Except Stop α) := by
  rintro _ ⟨⟩
  rfl

theorem bind {x : Except Stop α} {f : α → Except Stop β} (hx : OnlyMalformed x)
    (hf : ∀ a, x = .ok a → OnlyMalformed (f a)) : OnlyMalformed (x >>= f) := by
  intro stop h
  rcases Except.bind_eq_error_iff.mp h with h | ⟨a, ha, h⟩
  · exact hx stop h
  · exact hf a ha stop h

theorem map {x : Except Stop α} (hx : OnlyMalformed x) (f : α → β) : OnlyMalformed (x.map f) := by
  intro stop h
  exact hx stop (Except.map_eq_error_iff.mp h)

end Stop.OnlyMalformed

/-! ### Small texts -/

/-- Whether a character opens a container. -/
def isOpening (c : Char) : Bool :=
  c == '[' || c == '\x7b'

/-- There are no more opening marks than containers may be nested, and no more digits than an
integer may have. -/
structure IsSmall (room : Nat) (cs : List Char) : Prop where
  openings : cs.countP isOpening ≤ room
  digits : cs.countP Char.isDigit ≤ maxDigits

namespace IsSmall

variable {room : Nat} {cs left : List Char}

private theorem of_suffix (h : IsSmall room cs) (hleft : left <:+ cs) : IsSmall room left :=
  ⟨hleft.sublist.countP_le.trans h.openings, hleft.sublist.countP_le.trans h.digits⟩

theorem tail {c : Char} (h : IsSmall room (c :: cs)) : IsSmall room cs :=
  h.of_suffix (List.suffix_cons c cs)

theorem skipSpace (h : IsSmall room cs) : IsSmall room (skipSpace cs) :=
  h.of_suffix (List.dropWhile_suffix _)

/-- After an opening mark there is one less, so there was room for it. -/
private theorem after_opening {c : Char} (h : IsSmall room (c :: cs)) (hc : isOpening c = true) :
    room ≠ 0 ∧ IsSmall (room - 1) cs := by
  have hcount := h.openings
  rw [List.countP_cons_of_pos hc] at hcount
  exact ⟨by omega, by omega, h.tail.digits⟩

end IsSmall

theorem Lexes.suffix {cs left : List Char} (h : Lexes cs left) : left <:+ cs := by
  obtain ⟨row, -, hcs, -⟩ := h
  exact ⟨_, hcs.symm⟩

/-! ### The readers -/

private theorem onlyMalformed_secondHalf? (n : Nat) (cs : List Char) :
    Stop.OnlyMalformed (secondHalf? n cs) := by
  rw [secondHalf?.eq_def]
  split
  · split_ifs
    · exact .ok _
    · split
      · exact .malformed _ _
      · exact .ok _
  · exact .ok _

private theorem onlyMalformed_readString (opening cs : List Char) :
    Stop.OnlyMalformed (readString opening cs) := by
  fun_induction readString opening cs with
  | case2 left => exact .ok _
  | case6 a b c d after _ n hn stop hstop =>
    rintro _ ⟨⟩
    exact onlyMalformed_secondHalf? n after _ hstop
  | case7 a b c d after _ n hn hlone ih => exact ih.map _
  | case8 a b c d n hn m _ _ _ _ _ _ rest _ hhalf ih => exact ih.map _
  | case11 e rest _ c hc ih => exact ih.map _
  | case14 c rest hquote hslash hspace ih => exact ih.map _
  | _ => exact .malformed _ _

/-- The digits of an integer are all digits of the text. -/
private theorem length_wholeDigits_le (cs : List Char) :
    (wholeDigits cs).1.length ≤ cs.countP Char.isDigit := by
  have hall : (wholeDigits cs).1.countP Char.isDigit = (wholeDigits cs).1.length :=
    List.countP_eq_length.mpr fun _ => isDigit_of_mem_wholeDigits
  have hprefix : (wholeDigits cs).1 <+: cs := ⟨_, wholeDigits_append_eq cs⟩
  rw [← hall]
  exact hprefix.sublist.countP_le

private theorem onlyMalformed_readNumber {room : Nat} {cs : List Char} (h : IsSmall room cs) :
    Stop.OnlyMalformed (readNumber cs) := by
  have hwhole : ∀ body : List Char, body <:+ cs → ¬maxDigits < (wholeDigits body).1.length :=
    fun body hbody =>
      Nat.not_lt.mpr ((length_wholeDigits_le body).trans (h.of_suffix hbody).digits)
  rw [readNumber.eq_def]
  dsimp only
  split
  · next rest =>
    simp only [if_neg (hwhole rest (List.suffix_cons _ _))]
    split
    · exact .malformed _ _
    · split
      · exact .ok _
      · exact .ok _
  · simp only [if_neg (hwhole cs (List.suffix_refl cs))]
    split
    · exact .malformed _ _
    · split
      · exact .ok _
      · exact .ok _

private theorem onlyMalformed_readScalar {room : Nat} {cs : List Char} (h : IsSmall room cs) :
    Stop.OnlyMalformed (readScalar cs) := by
  rw [readScalar_eq]
  split
  · exact .ok _
  · exact onlyMalformed_readNumber h

section

variable {fuel room : Nat}

private theorem onlyMalformed_readValue_succ
    (hitems : ∀ {room : Nat} {cs : List Char}, IsSmall room cs →
      Stop.OnlyMalformed (readItems fuel room cs))
    (hfields : ∀ {room : Nat} {cs : List Char}, IsSmall room cs →
      Stop.OnlyMalformed (readFields fuel room cs))
    {cs : List Char} (h : IsSmall room cs) : Stop.OnlyMalformed (readValue (fuel + 1) room cs) := by
  rw [readValue.eq_def]
  dsimp only
  split
  · exact (onlyMalformed_readString _ _).map _
  · obtain ⟨hroom, hleft⟩ := h.after_opening rfl
    rw [if_neg hroom]
    split
    · exact .ok _
    · exact (hitems hleft.skipSpace).map _
  · obtain ⟨hroom, hleft⟩ := h.after_opening rfl
    rw [if_neg hroom]
    split
    · exact .ok _
    · exact (hfields hleft.skipSpace).map _
  · exact onlyMalformed_readScalar h

private theorem onlyMalformed_readItems_succ
    (hvalue : ∀ {cs : List Char}, IsSmall room cs → Stop.OnlyMalformed (readValue fuel room cs))
    (hitems : ∀ {cs : List Char}, IsSmall room cs → Stop.OnlyMalformed (readItems fuel room cs))
    {cs : List Char} (h : IsSmall room cs) : Stop.OnlyMalformed (readItems (fuel + 1) room cs) := by
  rw [readItems.eq_def]
  refine (hvalue h).bind ?_
  rintro ⟨item, left⟩ hread
  have hleft : IsSmall room (skipSpace left) :=
    (h.of_suffix ((reads_of_readers _).1 hread).lexes.suffix).skipSpace
  dsimp only
  split
  · exact .ok _
  · next heq =>
    rw [heq] at hleft
    exact (hitems hleft.tail.skipSpace).bind fun _ _ => .ok _
  · exact .malformed _ _

private theorem onlyMalformed_readFields_succ
    (hvalue : ∀ {cs : List Char}, IsSmall room cs → Stop.OnlyMalformed (readValue fuel room cs))
    (hfields : ∀ {cs : List Char}, IsSmall room cs → Stop.OnlyMalformed (readFields fuel room cs))
    {cs : List Char} (h : IsSmall room cs) :
    Stop.OnlyMalformed (readFields (fuel + 1) room cs) := by
  rw [readFields.eq_def]
  dsimp only
  split
  · refine (onlyMalformed_readString _ _).bind ?_
    rintro ⟨name, left⟩ hname
    have hleft : IsSmall room (skipSpace left) :=
      (h.of_suffix (Lexes.literal (readString_eq_ok_iff.mp hname)).suffix).skipSpace
    dsimp only
    split
    · next hcolon =>
      rw [hcolon] at hleft
      have hbody := hleft.tail.skipSpace
      refine (hvalue hbody).bind ?_
      rintro ⟨value, left⟩ hread
      have hleft : IsSmall room (skipSpace left) :=
        (hbody.of_suffix ((reads_of_readers _).1 hread).lexes.suffix).skipSpace
      dsimp only
      split
      · exact .ok _
      · next hcomma =>
        rw [hcomma] at hleft
        exact (hfields hleft.tail.skipSpace).bind fun _ _ => .ok _
      · exact .malformed _ _
    · exact .malformed _ _
  · exact .malformed _ _

end

/-- **Small texts** stop no reader for a limit. -/
theorem onlyMalformed_readers (fuel : Nat) : ∀ {room : Nat} {cs : List Char}, IsSmall room cs →
    Stop.OnlyMalformed (readValue fuel room cs) ∧ Stop.OnlyMalformed (readItems fuel room cs) ∧
      Stop.OnlyMalformed (readFields fuel room cs) := by
  induction fuel with
  | zero => exact fun _ => ⟨.malformed _ _, .malformed _ _, .malformed _ _⟩
  | succ fuel ih =>
    intro room cs h
    exact ⟨onlyMalformed_readValue_succ (fun h => (ih h).2.1) (fun h => (ih h).2.2) h,
      onlyMalformed_readItems_succ (fun h => (ih h).1) (fun h => (ih h).2.1) h,
      onlyMalformed_readFields_succ (fun h => (ih h).1) (fun h => (ih h).2.2) h⟩

/-- **A text fits** if it holds no more opening marks than containers may be nested, and no more
digits than an integer may have. -/
theorem fits_of_isSmall {room : Nat} {text : String} (h : IsSmall room text.toList) :
    Fits room text := by
  have hchars : Stop.OnlyMalformed (readChars room text.toList) := by
    rw [readChars]
    split
    · exact .malformed _ _
    · refine (onlyMalformed_readers _ h.skipSpace).1.bind ?_
      rintro ⟨value, left⟩ -
      dsimp only
      split
      · exact .ok _
      · exact .malformed _ _
  intro fault hfault
  rw [readWithin] at hfault
  split at hfault
  · cases hfault
  · next stop hstop =>
    rw [← Except.error.inj hfault, Stop.isMalformed_locate]
    exact hchars stop hstop

end Json

end ApiOutline
