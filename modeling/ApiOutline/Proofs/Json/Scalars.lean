import ApiOutline.Json.Reader
import Mathlib.Data.List.Find
import Mathlib.Data.List.TakeWhile

/-!
# Words and numbers in JSON

A word or a number has characters of its own, and it is read from them alone. Where the next
character is of another kind, what comes after it makes no difference (`readScalar_append`). This is
not so of every text: `1.` reads as one, with the point left over, but before a digit the point is
part of the number.
-/

namespace ApiOutline

namespace Json

/-- A character that words and numbers are written with. -/
def isScalarChar (c : Char) : Bool :=
  c.isAlphanum || c == '-' || c == '+' || c == '.'

/-- No word or number can go on here. -/
def EndsScalar (cs : List Char) : Prop :=
  ∀ c ∈ cs.head?, isScalarChar c = false

theorem EndsScalar.nil : EndsScalar [] :=
  nofun

theorem EndsScalar.cons {c : Char} (h : isScalarChar c = false) (cs : List Char) :
    EndsScalar (c :: cs) := by
  intro d hd
  rwa [← Option.some.inj hd]

theorem isScalarChar_of_isDigit {c : Char} (h : c.isDigit = true) : isScalarChar c = true := by
  simp [isScalarChar, Char.isAlphanum, h]

/-! ### What a number takes -/

/-- `left` is what remains of `cs` after some characters of a word or a number. -/
def PassesTo (cs left : List Char) : Prop :=
  ∃ taken, cs = taken ++ left ∧ ∀ c ∈ taken, isScalarChar c = true

namespace PassesTo

theorem refl (cs : List Char) : PassesTo cs cs :=
  ⟨[], rfl, nofun⟩

theorem trans {xs ys zs : List Char} (h : PassesTo xs ys) (h' : PassesTo ys zs) :
    PassesTo xs zs := by
  obtain ⟨first, rfl, hfirst⟩ := h
  obtain ⟨second, rfl, hsecond⟩ := h'
  exact ⟨first ++ second, (List.append_assoc ..).symm, List.forall_mem_append.mpr
    ⟨hfirst, hsecond⟩⟩

theorem cons {c : Char} {cs left : List Char} (hc : isScalarChar c = true)
    (h : PassesTo cs left) : PassesTo (c :: cs) left := by
  obtain ⟨taken, rfl, htaken⟩ := h
  exact ⟨c :: taken, rfl, List.forall_mem_cons.mpr ⟨hc, htaken⟩⟩

private theorem dropWhile_isDigit (cs : List Char) : PassesTo cs (cs.dropWhile Char.isDigit) :=
  ⟨cs.takeWhile Char.isDigit, List.takeWhile_append_dropWhile.symm,
    fun _ hc => isScalarChar_of_isDigit (List.mem_takeWhile_imp hc)⟩

end PassesTo

private theorem passesTo_fractionDigits (cs : List Char) : PassesTo cs (fractionDigits cs).2 := by
  rw [fractionDigits.eq_def]
  split
  · next cs =>
    dsimp only
    split_ifs
    · exact .refl _
    · exact .cons (by decide) (.dropWhile_isDigit cs)
  · exact .refl _

private theorem passesTo_exponentPart (cs : List Char) : PassesTo cs (exponentPart cs).2 := by
  rw [exponentPart.eq_def]
  split
  · exact .refl _
  · next e cs =>
    split_ifs with he
    · have hmark : isScalarChar e = true := by
        rcases Bool.or_eq_true_iff.mp he with h | h <;> rw [eq_of_beq h] <;> decide
      dsimp only
      split_ifs
      all_goals first | exact .refl _ | refine .cons hmark ?_
      all_goals
        dsimp only
        split
        · exact .cons (by decide) (.dropWhile_isDigit _)
        · exact .cons (by decide) (.dropWhile_isDigit _)
        · exact .dropWhile_isDigit _
    · exact .refl _

theorem wholeDigits_append_eq (cs : List Char) : (wholeDigits cs).1 ++ (wholeDigits cs).2 = cs := by
  rw [wholeDigits.eq_def]
  split
  · rfl
  · exact List.takeWhile_append_dropWhile

theorem isDigit_of_mem_wholeDigits {cs : List Char} {c : Char} (h : c ∈ (wholeDigits cs).1) :
    c.isDigit = true := by
  rw [wholeDigits.eq_def] at h
  split at h
  · rw [List.mem_singleton.mp h]
    decide
  · exact List.mem_takeWhile_imp h

/-! ### The parts of a number -/

/-- The digits before the point and after it, the exponent, and what is left after them. -/
def numberParts (body : List Char) : List Char × List Char × Option Int × List Char :=
  let (whole, afterWhole) := wholeDigits body
  let (fraction, afterFraction) := fractionDigits afterWhole
  (whole, fraction, exponentPart afterFraction)

/-- The number that its sign and its parts make. -/
def numberOf? (negative : Bool) (whole fraction : List Char) (exponent : Option Int) :
    Option Json :=
  if whole.isEmpty then none
  else if fraction.isEmpty && exponent.isNone then
    if maxDigits < whole.length then none
    else some (.int (if negative then -digitsValue whole else digitsValue whole))
  else
    some (.float (.ofDecimal negative (digitsValue (whole ++ fraction))
      (exponent.getD 0 - fraction.length)))

/-- The number that begins with its digits, and what is left after it. -/
def unsigned? (negative : Bool) (body : List Char) : Option (Json × List Char) :=
  let (whole, fraction, exponent, left) := numberParts body
  (numberOf? negative whole fraction exponent).map fun v => (v, left)

theorem toOption_readNumber_neg (body : List Char) :
    (readNumber ('-' :: body)).toOption = unsigned? true body := by
  simp only [readNumber, unsigned?, numberParts, numberOf?]
  split_ifs <;> rfl

theorem toOption_readNumber_of_ne {cs : List Char} (h : ∀ body, cs ≠ '-' :: body) :
    (readNumber cs).toOption = unsigned? false cs := by
  simp only [readNumber, unsigned?, numberParts, numberOf?]
  split_ifs <;> rfl

/-- A number has a digit before the point. -/
private theorem whole_ne_nil_of_numberOf? {negative : Bool} {whole fraction : List Char}
    {exponent : Option Int} {v : Json} (h : numberOf? negative whole fraction exponent = some v) :
    whole ≠ [] := by
  rintro rfl
  cases h

private theorem passesTo_of_unsigned? {negative : Bool} {body left : List Char} {v : Json}
    (h : unsigned? negative body = some (v, left)) :
    ∃ c cs, body = c :: cs ∧ isScalarChar c = true ∧ PassesTo cs left := by
  obtain ⟨_, hnumber, heq⟩ := Option.map_eq_some_iff.mp h
  obtain ⟨-, rfl⟩ := Prod.mk.inj heq
  obtain ⟨c, rest, hwhole⟩ : ∃ c rest, (wholeDigits body).1 = c :: rest :=
    List.exists_cons_of_ne_nil (whole_ne_nil_of_numberOf? hnumber)
  have hdigits : ∀ d ∈ (wholeDigits body).1, isScalarChar d = true := fun d hd =>
    isScalarChar_of_isDigit (isDigit_of_mem_wholeDigits hd)
  rw [hwhole] at hdigits
  obtain ⟨hc, hrest⟩ := List.forall_mem_cons.mp hdigits
  refine ⟨c, rest ++ (wholeDigits body).2, ?_, hc, PassesTo.trans ⟨rest, rfl, hrest⟩
    ((passesTo_fractionDigits _).trans (passesTo_exponentPart _))⟩
  rw [← List.cons_append, ← hwhole]
  exact (wholeDigits_append_eq body).symm

private theorem passesTo_of_readNumber {cs left : List Char} {v : Json}
    (h : readNumber cs = .ok (v, left)) :
    ∃ c rest, cs = c :: rest ∧ isScalarChar c = true ∧ PassesTo rest left := by
  have hread : (readNumber cs).toOption = some (v, left) := by
    rw [h]
    rfl
  by_cases hsign : ∃ body, cs = '-' :: body
  · obtain ⟨body, rfl⟩ := hsign
    rw [toOption_readNumber_neg] at hread
    obtain ⟨c, rest, rfl, hc, hrest⟩ := passesTo_of_unsigned? hread
    exact ⟨'-', c :: rest, rfl, by decide, .cons hc hrest⟩
  · rw [toOption_readNumber_of_ne fun body hbody => hsign ⟨body, hbody⟩] at hread
    exact passesTo_of_unsigned? hread

/-! ### Words -/

/-- The words, in the order in which they are looked for, and what they stand for. -/
def words : List (String × Json) :=
  [("null", .null), ("true", .bool true), ("false", .bool false), ("NaN", .float .nan),
    ("Infinity", .float (.infinite false)), ("-Infinity", .float (.infinite true))]

/-- The word at the head of `cs`, with what is left after it. -/
def word? (cs : List Char) : Option (Json × List Char) :=
  (words.find? fun word => word.1.toList.isPrefixOf cs).map fun word =>
    (word.2, cs.drop word.1.length)

theorem readScalar_eq (cs : List Char) : readScalar cs =
    match word? cs with
    | some step => .ok step
    | none => readNumber cs := by
  have hcons : ∀ (text : String) (v : Json) (l : List (String × Json)),
      (((text, v) :: l).find? fun word => word.1.toList.isPrefixOf cs).map
        (fun word => (word.2, cs.drop word.1.length)) =
      ((if text.toList.isPrefixOf cs then some (v, cs.drop text.length) else none) <|>
        (l.find? fun word => word.1.toList.isPrefixOf cs).map
          fun word => (word.2, cs.drop word.1.length)) := by
    intro text v l
    rw [List.find?_cons]
    cases text.toList.isPrefixOf cs <;> simp
  have hlast : ∀ x : Option (Json × List Char), (x <|> none) = x := by
    intro x
    cases x <;> rfl
  rw [word?, words, hcons, hcons, hcons, hcons, hcons, hcons, List.find?_nil, Option.map_none,
    hlast]
  rfl

theorem toOption_readScalar (cs : List Char) :
    (readScalar cs).toOption = (word? cs).or (readNumber cs).toOption := by
  rw [readScalar_eq]
  cases word? cs <;> rfl

private theorem mem_words {text : String} {v : Json} (h : (text, v) ∈ words) :
    text.toList ≠ [] ∧ ∀ c ∈ text.toList, isScalarChar c = true := by
  have hwords : ∀ word ∈ words.map Prod.fst,
      word.toList ≠ [] ∧ word.toList.all isScalarChar = true := by
    decide
  obtain ⟨hne, hchars⟩ := hwords text (List.mem_map_of_mem h)
  exact ⟨hne, List.all_eq_true.mp hchars⟩

/-- **A word or a number** takes at least one character, and none but those of its kind. -/
theorem passesTo_of_readScalar {cs left : List Char} {v : Json}
    (h : readScalar cs = .ok (v, left)) :
    ∃ c rest, cs = c :: rest ∧ isScalarChar c = true ∧ PassesTo rest left := by
  rw [readScalar_eq] at h
  split at h
  · next hword =>
    obtain rfl := Except.ok.inj h
    obtain ⟨⟨text, w⟩, hfind, heq⟩ := Option.map_eq_some_iff.mp hword
    obtain ⟨rfl, rfl⟩ := Prod.mk.inj heq
    obtain ⟨hne, hchars⟩ := mem_words (List.mem_of_find?_eq_some hfind)
    have hhead := List.find?_some hfind
    obtain ⟨left, rfl⟩ := List.isPrefixOf_iff_prefix.mp hhead
    obtain ⟨c, rest, htext⟩ := List.exists_cons_of_ne_nil hne
    rw [htext] at hchars
    obtain ⟨hc, hrest⟩ := List.forall_mem_cons.mp hchars
    rw [← String.length_toList, List.drop_left, htext]
    exact ⟨c, rest ++ left, rfl, hc, rest, rfl, hrest⟩
  · exact passesTo_of_readNumber h

/-! ### What comes after -/

section

variable {left : List Char}

private theorem takeWhile_append (hleft : EndsScalar left) (xs : List Char) :
    (xs ++ left).takeWhile Char.isDigit = xs.takeWhile Char.isDigit ∧
      (xs ++ left).dropWhile Char.isDigit = xs.dropWhile Char.isDigit ++ left := by
  induction xs with
  | nil =>
    cases left with
    | nil => exact ⟨rfl, rfl⟩
    | cons c cs =>
      have hc : c.isDigit = false := by
        by_contra hdigit
        have hscalar := isScalarChar_of_isDigit (eq_true_of_ne_false hdigit)
        rw [hleft c rfl] at hscalar
        exact Bool.false_ne_true hscalar
      rw [List.nil_append, List.takeWhile_cons_of_neg (by simp [hc]),
        List.dropWhile_cons_of_neg (by simp [hc])]
      exact ⟨rfl, rfl⟩
  | cons c cs ih =>
    obtain ⟨htake, hdrop⟩ := ih
    rw [List.cons_append, List.takeWhile_cons, List.takeWhile_cons, List.dropWhile_cons,
      List.dropWhile_cons, htake, hdrop]
    split_ifs
    · exact ⟨rfl, rfl⟩
    · exact ⟨rfl, rfl⟩

/-- A head of one kind or the other is not put there by what does not go on with it. -/
private theorem append_ne_cons (hleft : EndsScalar left) {c : Char} (hc : isScalarChar c = true)
    {xs : List Char} (hxs : ∀ cs, xs ≠ c :: cs) (cs : List Char) : xs ++ left ≠ c :: cs := by
  intro h
  cases xs with
  | nil =>
    have hother := hleft c (by rw [← List.nil_append left, h]; rfl)
    rw [hc] at hother
    exact Bool.false_ne_true hother.symm
  | cons d rest => exact hxs rest (by rw [(List.cons.inj h).1])

private theorem wholeDigits_append (hleft : EndsScalar left) (xs : List Char) :
    wholeDigits (xs ++ left) = (wholeDigits xs).map id (· ++ left) := by
  by_cases hzero : ∃ cs, xs = '0' :: cs
  · obtain ⟨cs, rfl⟩ := hzero
    rfl
  · have hxs : ∀ cs, xs ≠ '0' :: cs := fun cs h => hzero ⟨cs, h⟩
    obtain ⟨htake, hdrop⟩ := takeWhile_append hleft xs
    rw [wholeDigits.eq_2 _ hxs, wholeDigits.eq_2 _ (append_ne_cons hleft (by decide) hxs), htake,
      hdrop]
    rfl

private theorem fractionDigits_append (hleft : EndsScalar left) (xs : List Char) :
    fractionDigits (xs ++ left) = (fractionDigits xs).map id (· ++ left) := by
  by_cases hpoint : ∃ cs, xs = '.' :: cs
  · obtain ⟨cs, rfl⟩ := hpoint
    obtain ⟨htake, hdrop⟩ := takeWhile_append hleft cs
    rw [List.cons_append, fractionDigits, fractionDigits, htake, hdrop]
    split_ifs
    · rfl
    · rfl
  · have hxs : ∀ cs, xs ≠ '.' :: cs := fun cs h => hpoint ⟨cs, h⟩
    rw [fractionDigits.eq_2 _ hxs, fractionDigits.eq_2 _ (append_ne_cons hleft (by decide) hxs)]
    rfl

/-- The sign of an exponent, and what comes after it. -/
private def exponentSign : List Char → Bool × List Char
  | '-' :: rest => (true, rest)
  | '+' :: rest => (false, rest)
  | rest => (false, rest)

private theorem exponentPart_cons (e : Char) (cs : List Char) : exponentPart (e :: cs) =
    if e == 'e' || e == 'E' then
      if ((exponentSign cs).2.takeWhile Char.isDigit).isEmpty then (none, e :: cs)
      else
        (some (if (exponentSign cs).1 then
            -(digitsValue ((exponentSign cs).2.takeWhile Char.isDigit) : Int)
          else digitsValue ((exponentSign cs).2.takeWhile Char.isDigit)),
          (exponentSign cs).2.dropWhile Char.isDigit)
    else (none, e :: cs) :=
  rfl

private theorem exponentSign_append (hleft : EndsScalar left) (xs : List Char) :
    exponentSign (xs ++ left) = (exponentSign xs).map id (· ++ left) := by
  by_cases hminus : ∃ cs, xs = '-' :: cs
  · obtain ⟨cs, rfl⟩ := hminus
    rfl
  by_cases hplus : ∃ cs, xs = '+' :: cs
  · obtain ⟨cs, rfl⟩ := hplus
    rfl
  have hminus : ∀ cs, xs ≠ '-' :: cs := fun cs h => hminus ⟨cs, h⟩
  have hplus : ∀ cs, xs ≠ '+' :: cs := fun cs h => hplus ⟨cs, h⟩
  rw [exponentSign.eq_3 _ hminus hplus, exponentSign.eq_3 _
    (append_ne_cons hleft (by decide) hminus) (append_ne_cons hleft (by decide) hplus)]
  rfl

private theorem exponentPart_append (hleft : EndsScalar left) (xs : List Char) :
    exponentPart (xs ++ left) = (exponentPart xs).map id (· ++ left) := by
  cases xs with
  | nil =>
    cases left with
    | nil => rfl
    | cons c cs =>
      have hc : ¬(c == 'e' || c == 'E') = true := by
        intro hmark
        have hother := hleft c rfl
        rcases Bool.or_eq_true_iff.mp hmark with h | h
        · rw [eq_of_beq h] at hother
          exact absurd hother (by decide)
        · rw [eq_of_beq h] at hother
          exact absurd hother (by decide)
      rw [List.nil_append, exponentPart_cons, if_neg hc]
      rfl
  | cons e cs =>
    obtain ⟨htake, hdrop⟩ := takeWhile_append hleft (exponentSign cs).2
    simp only [List.cons_append, exponentPart_cons, exponentSign_append hleft, Prod.map, id, htake,
      hdrop]
    split_ifs <;> rfl

private theorem unsigned?_append (hleft : EndsScalar left) (negative : Bool) (xs : List Char) :
    unsigned? negative (xs ++ left) = (unsigned? negative xs).map (Prod.map id (· ++ left)) := by
  simp only [unsigned?, numberParts, wholeDigits_append hleft, fractionDigits_append hleft,
    exponentPart_append hleft, Prod.map, id, Option.map_map]
  rfl

private theorem toOption_readNumber_append (hleft : EndsScalar left) (xs : List Char) :
    (readNumber (xs ++ left)).toOption =
      (readNumber xs).toOption.map (Prod.map id (· ++ left)) := by
  by_cases hminus : ∃ cs, xs = '-' :: cs
  · obtain ⟨cs, rfl⟩ := hminus
    rw [List.cons_append, toOption_readNumber_neg, toOption_readNumber_neg,
      unsigned?_append hleft]
  · have hxs : ∀ cs, xs ≠ '-' :: cs := fun cs h => hminus ⟨cs, h⟩
    rw [toOption_readNumber_of_ne hxs,
      toOption_readNumber_of_ne (append_ne_cons hleft (by decide) hxs), unsigned?_append hleft]

/-- A word has no character beyond those of a word or a number. -/
private theorem isPrefixOf_append (hleft : EndsScalar left) {text : List Char}
    (htext : ∀ c ∈ text, isScalarChar c = true) (xs : List Char) :
    text.isPrefixOf (xs ++ left) = text.isPrefixOf xs := by
  induction text generalizing xs with
  | nil => simp
  | cons c text ih =>
    obtain ⟨hc, htext⟩ := List.forall_mem_cons.mp htext
    cases xs with
    | nil =>
      cases left with
      | nil => rfl
      | cons d cs =>
        have hne : (c == d) = false := by
          rw [beq_eq_false_iff_ne]
          rintro rfl
          rw [hleft c rfl] at hc
          exact Bool.false_ne_true hc
        change (c == d && text.isPrefixOf cs) = false
        rw [hne, Bool.false_and]
    | cons d xs => rw [List.cons_append, List.isPrefixOf, List.isPrefixOf, ih htext]

private theorem word?_append (hleft : EndsScalar left) (xs : List Char) :
    word? (xs ++ left) = (word? xs).map (Prod.map id (· ++ left)) := by
  have hfind : (words.find? fun word => word.1.toList.isPrefixOf (xs ++ left)) =
      words.find? fun word => word.1.toList.isPrefixOf xs :=
    List.find?_congr fun word hword => isPrefixOf_append hleft (mem_words hword).2 xs
  rw [word?, word?, hfind, Option.map_map]
  cases hfound : words.find? fun word => word.1.toList.isPrefixOf xs with
  | none => rfl
  | some word =>
    have hhead : word.1.toList.isPrefixOf xs = true := by
      simpa using List.find?_some hfound
    have hlength : word.1.length ≤ xs.length := by
      rw [← String.length_toList]
      exact (List.isPrefixOf_iff_prefix.mp hhead).length_le
    rw [Option.map_some, Option.map_some, List.drop_append_of_le_length hlength]
    rfl

/-- **Nothing after it counts.** A word or a number reads as it does alone where it cannot go on. -/
theorem readScalar_append (hleft : EndsScalar left) {xs rest : List Char} {v : Json} :
    readScalar (xs ++ left) = .ok (v, rest ++ left) ↔ readScalar xs = .ok (v, rest) := by
  have hread : (readScalar (xs ++ left)).toOption =
      (readScalar xs).toOption.map (Prod.map id (· ++ left)) := by
    rw [toOption_readScalar, toOption_readScalar, word?_append hleft,
      toOption_readNumber_append hleft]
    cases word? xs <;> rfl
  have hsome : ∀ {cs step}, readScalar cs = .ok step ↔ (readScalar cs).toOption = some step := by
    intro cs step
    cases readScalar cs <;> simp [Except.toOption]
  rw [hsome, hsome, hread, Option.map_eq_some_iff]
  constructor
  · rintro ⟨⟨w, rest'⟩, hw, heq⟩
    obtain ⟨rfl, hrest⟩ := Prod.mk.inj heq
    rwa [List.append_cancel_right hrest] at hw
  · intro h
    exact ⟨_, h, rfl⟩

end

end Json

end ApiOutline
