import ApiOutline.Config.Load
import ApiOutline.Proofs.Json.Grammar
import ApiOutline.Proofs.Json.Lexemes

/-!
# Stripping plain JSON

A text that is read as JSON is a row of lexemes without comments, and none of the commas between its
values has a closing mark after it. So stripping such a text leaves all of it as it is, except for
the string literals that hold a comma before a closing mark: there the comma goes. What is left is
read again, in the same room (`stripComments_plain`).

Both are inductions on what is read, `Lexes` for what becomes of the characters and
`Reads.dropLastCommas` for what is read afterwards.
-/

namespace ApiOutline

namespace Json

/-- The characters of a lexeme, those of a literal without the commas that have a closing mark after
them. -/
def Lexeme.trimmed : Lexeme → List Char
  | literal inside _ => '"' :: (withoutLastCommas inside [] ++ ['"'])
  | l => l.chars

/-! ### Commas that stay -/

private theorem dropLastCommas_append (xs ys : List Char) :
    dropLastCommas (xs ++ ys) = withoutLastCommas xs ys ++ dropLastCommas ys := by
  rw [dropLastCommas_eq, dropLastCommas_eq, withoutLastCommas_append, List.append_nil]

private theorem dropLastCommas_append_of_not_mem {xs : List Char} (h : ',' ∉ xs) (ys : List Char) :
    dropLastCommas (xs ++ ys) = xs ++ dropLastCommas ys := by
  rw [dropLastCommas_append, withoutLastCommas_eq_self]
  rintro before rest rfl
  exact absurd (List.mem_append_right _ List.mem_cons_self) h

private theorem dropLastCommas_cons {c : Char} {cs : List Char} (h : c = ',' → ¬Closes cs) :
    dropLastCommas (c :: cs) = c :: dropLastCommas cs := by
  rw [dropLastCommas, if_neg]
  rw [Bool.and_eq_true, beq_iff_eq, closesNext_iff]
  exact fun hdropped => h hdropped.1 hdropped.2

private theorem dropLastCommas_cons_of_ne {c : Char} (h : c ≠ ',') (cs : List Char) :
    dropLastCommas (c :: cs) = c :: dropLastCommas cs :=
  dropLastCommas_cons fun hc => absurd hc h

private theorem dropLastCommas_comma {cs : List Char} (h : Closes cs) :
    dropLastCommas (',' :: cs) = dropLastCommas cs := by
  rw [dropLastCommas, if_pos]
  rw [(closesNext_iff cs).mpr h]
  rfl

/-- The first character that is kept is the first one, or comes after a comma that is dropped. -/
private theorem head?_dropLastCommas {cs : List Char} {c : Char}
    (h : (dropLastCommas cs).head? = some c) :
    cs.head? = some c ∨ Text.isBlank c = true ∨ c = ']' ∨ c = '\x7d' := by
  cases cs with
  | nil => cases h
  | cons d cs =>
    by_cases hdropped : d = ',' ∧ Closes cs
    · obtain ⟨rfl, hcloses⟩ := hdropped
      rw [dropLastCommas_comma hcloses] at h
      cases cs with
      | nil => cases h
      | cons e cs =>
        by_cases hblank : Text.isBlank e = true
        · rw [dropLastCommas_cons_of_ne (by rintro rfl; exact absurd hblank (by decide))] at h
          exact .inr (.inl (Option.some.inj h ▸ hblank))
        · have hnext : nextMark? (e :: cs) = some e := List.find?_cons_of_pos (by simp [hblank])
          rw [Closes, hnext] at hcloses
          rcases hcloses with heq | heq
          · obtain rfl := Option.some.inj heq
            rw [dropLastCommas_cons_of_ne (by decide)] at h
            exact .inr (.inr (.inl (Option.some.inj h).symm))
          · obtain rfl := Option.some.inj heq
            rw [dropLastCommas_cons_of_ne (by decide)] at h
            exact .inr (.inr (.inr (Option.some.inj h).symm))
    · rw [dropLastCommas_cons fun hd hcloses => hdropped ⟨hd, hcloses⟩] at h
      exact .inl h

/-! ### Blanks -/

private theorem isBlank_of_isSpace {c : Char} (h : isSpace c = true) : Text.isBlank c = true := by
  simp only [isSpace, Bool.or_eq_true, beq_iff_eq] at h
  rcases h with ((rfl | rfl) | rfl) | rfl <;> decide

theorem isBlank_of_isScalarChar {c : Char} (h : isScalarChar c = true) :
    Text.isBlank c = false := by
  have hcode : c.toNat = 0x2B ∨ c.toNat = 0x2D ∨ c.toNat = 0x2E ∨
      (0x30 ≤ c.toNat ∧ c.toNat ≤ 0x7A) := by
    simp only [isScalarChar, Bool.or_eq_true, beq_iff_eq] at h
    rcases h with ((h | rfl) | rfl) | rfl
    · -- letters are those between `A` and `Z` and those between `a` and `z`
      change ((decide (65 ≤ c.val ∧ c.val ≤ 90) ||
        (decide (97 ≤ c.val) && decide (c.val ≤ 122))) ||
          (decide (48 ≤ c.val) && decide (c.val ≤ 57))) = true at h
      simp only [Bool.or_eq_true, Bool.and_eq_true, decide_eq_true_eq,
        UInt32.le_iff_toNat_le] at h
      change ((65 ≤ c.toNat ∧ c.toNat ≤ 90) ∨ (97 ≤ c.toNat ∧ c.toNat ≤ 122)) ∨
        (48 ≤ c.toNat ∧ c.toNat ≤ 57) at h
      omega
    · decide
    · decide
    · decide
  simp only [Text.isBlank, Text.blankRanges, List.any_cons, List.any_nil, Bool.or_false,
    Bool.or_eq_false_iff, decide_eq_false_iff_not]
  omega

private theorem nextMark?_skipSpace (cs : List Char) : nextMark? (skipSpace cs) = nextMark? cs := by
  induction cs with
  | nil => rfl
  | cons c cs ih =>
    rw [skipSpace, List.dropWhile_cons]
    split_ifs with hc
    · rw [nextMark?, nextMark?, List.find?_cons_of_neg (by simp [isBlank_of_isSpace hc])]
      exact ih
    · rfl

/-- Blanks and the character after them are kept if that is no comma before a closing mark. -/
theorem skipSpace_dropLastCommas {cs next : List Char} {c : Char} (h : skipSpace cs = c :: next)
    (hkept : c = ',' → ¬Closes next) :
    skipSpace (dropLastCommas cs) = c :: dropLastCommas next := by
  induction cs with
  | nil => cases h
  | cons d cs ih =>
    rw [skipSpace, List.dropWhile_cons] at h
    split_ifs at h with hd
    · have hcomma : d = ',' → ¬Closes cs := by
        rintro rfl
        exact absurd hd (by decide)
      rw [dropLastCommas_cons hcomma, skipSpace, List.dropWhile_cons_of_pos hd]
      exact ih h
    · obtain ⟨rfl, rfl⟩ := List.cons.inj h
      rw [dropLastCommas_cons hkept, skipSpace, List.dropWhile_cons_of_neg hd]

private theorem dropLastCommas_of_skipSpace {cs : List Char} (h : skipSpace cs = []) :
    dropLastCommas cs = cs := by
  have hcomma : ',' ∉ cs := by
    intro hmem
    exact absurd (List.dropWhile_eq_nil_iff.mp h ',' hmem) (by decide)
  rw [← List.append_nil cs, dropLastCommas_append_of_not_mem hcomma]
  rfl

/-- The first character of a part is the first one that is no blank. -/
theorem Reads.nextMark? {room : Nat} {cs left : List Char} {part : Part}
    (h : Reads room (skipSpace cs) part left) : Json.nextMark? cs = (skipSpace cs).head? := by
  obtain ⟨c, rest, hcs, hc⟩ := h.head
  have hblank : Text.isBlank c = false := by
    rcases hc with rfl | rfl | rfl | hc
    · decide
    · decide
    · decide
    · exact isBlank_of_isScalarChar hc
  rw [← nextMark?_skipSpace, hcs]
  exact List.find?_cons_of_pos (by simp [hblank])

/-- No closing mark comes next where a part begins. -/
private theorem Reads.not_closes {room : Nat} {cs left : List Char} {part : Part}
    (h : Reads room (skipSpace cs) part left) : ¬Closes cs := by
  obtain ⟨c, rest, hcs, hc⟩ := h.head
  rw [Closes, h.nextMark?, hcs]
  rintro (heq | heq)
  · exact (h.ne_closing rest).1 (by rw [hcs, Option.some.inj heq])
  · exact (h.ne_closing rest).2 (by rw [hcs, Option.some.inj heq])

/-- Where a part begins, it begins there after the commas are dropped. -/
theorem Reads.skipSpace_dropLastCommas {room : Nat} {cs left : List Char} {part : Part}
    (h : Reads room (skipSpace cs) part left) :
    skipSpace (Json.dropLastCommas cs) = Json.dropLastCommas (skipSpace cs) := by
  obtain ⟨c, rest, hcs, hc⟩ := h.head
  have hcomma : c = ',' → ¬Closes rest := by
    rintro rfl
    exact absurd hc (by decide)
  rw [Json.skipSpace_dropLastCommas hcs hcomma, hcs, dropLastCommas_cons hcomma]

/-! ### Rows of lexemes -/

/-- The characters from `cs` to `left` are a row of lexemes without comments, and of its commas only
those go that a literal holds. -/
def Lexes (cs left : List Char) : Prop :=
  ∃ row : List Lexeme, (∀ l ∈ row, l.isComment = false) ∧ cs = Lexeme.text row ++ left ∧
    dropLastCommas cs = row.flatMap Lexeme.trimmed ++ dropLastCommas left

namespace Lexes

theorem trans {xs ys zs : List Char} (h : Lexes xs ys) (h' : Lexes ys zs) : Lexes xs zs := by
  obtain ⟨first, hfirst, rfl, hdrop⟩ := h
  obtain ⟨second, hsecond, rfl, hdrop'⟩ := h'
  refine ⟨first ++ second, List.forall_mem_append.mpr ⟨hfirst, hsecond⟩, ?_, ?_⟩
  · rw [Lexeme.text, Lexeme.text, Lexeme.text, List.flatMap_append, List.append_assoc]
  · rw [hdrop, hdrop', List.flatMap_append, List.append_assoc]

/-- Characters that are kept and begin no literal and no comment. -/
theorem run {body : List Char} (h : ∀ c ∈ body, c ≠ '"' ∧ c ≠ '/') {left : List Char}
    (hkept : dropLastCommas (body ++ left) = body ++ dropLastCommas left) :
    Lexes (body ++ left) left := by
  refine ⟨[.run body h], by simp [Lexeme.isComment], ?_, ?_⟩
  · rw [Lexeme.text_cons, Lexeme.text_nil, List.append_nil]
    rfl
  · rw [hkept, List.flatMap_singleton]
    rfl

theorem scalar {body left : List Char} (h : ∀ c ∈ body, isScalarChar c = true) :
    Lexes (body ++ left) left := by
  refine run (fun c hc => ?_) (dropLastCommas_append_of_not_mem (fun hmem => ?_) left)
  · have hscalar := h c hc
    constructor
    · rintro rfl
      exact absurd hscalar (by decide)
    · rintro rfl
      exact absurd hscalar (by decide)
  · exact absurd (h ',' hmem) (by decide)

theorem blanks (cs : List Char) : Lexes cs (skipSpace cs) := by
  have hspace : ∀ c ∈ cs.takeWhile isSpace, isSpace c = true := fun _ => List.mem_takeWhile_imp
  have hlexes : Lexes (cs.takeWhile isSpace ++ skipSpace cs) (skipSpace cs) := by
    refine run (fun c hc => ?_) (dropLastCommas_append_of_not_mem (fun hmem => ?_) _)
    · have hc := hspace c hc
      constructor
      · rintro rfl
        exact absurd hc (by decide)
      · rintro rfl
        exact absurd hc (by decide)
    · exact absurd (hspace ',' hmem) (by decide)
  rwa [skipSpace, List.takeWhile_append_dropWhile] at hlexes

private theorem afterBlanks {c : Char} (h : c ≠ '"' ∧ c ≠ '/') {cs left : List Char}
    (hcs : skipSpace cs = c :: left) (hkept : c = ',' → ¬Closes left) : Lexes cs left := by
  have hmark : Lexes ([c] ++ left) left := run (by simpa using h) (dropLastCommas_cons hkept)
  exact (hcs ▸ blanks cs).trans hmark

theorem mark {c : Char} (h : c ≠ '"' ∧ c ≠ '/' ∧ c ≠ ',') {cs left : List Char}
    (hcs : skipSpace cs = c :: left) : Lexes cs left :=
  afterBlanks ⟨h.1, h.2.1⟩ hcs fun hc => absurd hc h.2.2

theorem comma {cs left : List Char} (hcs : skipSpace cs = ',' :: left) (hkept : ¬Closes left) :
    Lexes cs left :=
  afterBlanks (by decide) hcs fun _ => hkept

theorem opening {c : Char} (h : c = '[' ∨ c = '\x7b') (left : List Char) :
    Lexes (c :: left) left := by
  rcases h with rfl | rfl
  · exact mark (by decide) rfl
  · exact mark (by decide) rfl

end Lexes

/-! ### Strings -/

/-- A character that is no hexadecimal digit is not among those of an escape. -/
private theorem not_mem_of_hexFour? {a b c d x : Char} {n : Nat} (h : hexFour? a b c d = some n)
    (hx : hexDigit? x = none) : x ∉ [a, b, c, d] := by
  simp only [hexFour?, Option.bind_eq_bind, Option.bind_eq_some_iff] at h
  obtain ⟨_, ha, _, hb, _, hc, _, hd, -⟩ := h
  intro hmem
  simp only [List.mem_cons, List.not_mem_nil, or_false] at hmem
  rcases hmem with rfl | rfl | rfl | rfl
  · rw [hx] at ha
    cases ha
  · rw [hx] at hb
    cases hb
  · rw [hx] at hc
    cases hc
  · rw [hx] at hd
    cases hd

private theorem Lexeme.IsInside.unit {a b c d : Char} {n : Nat} {inside : List Char}
    (hn : hexFour? a b c d = some n) (h : Lexeme.IsInside inside) :
    Lexeme.IsInside ('\\' :: 'u' :: a :: b :: c :: d :: inside) := by
  have hchar : ∀ x ∈ [a, b, c, d], x ≠ '"' ∧ x ≠ '\\' := by
    intro x hx
    constructor
    · rintro rfl
      exact not_mem_of_hexFour? hn rfl hx
    · rintro rfl
      exact not_mem_of_hexFour? hn rfl hx
  exact .escape 'u' (.char (hchar a (by simp)) (.char (hchar b (by simp)) (.char (hchar c (by simp))
    (.char (hchar d (by simp)) h))))

/-- The inside of a string is the inside of a literal. -/
private theorem exists_inside_of_readsString {cs s left : List Char} (h : ReadsString cs s left) :
    ∃ inside, Lexeme.IsInside inside ∧ cs = inside ++ '"' :: left := by
  induction h with
  | close left => exact ⟨[], .nil, rfl⟩
  | char hc _ _ ih =>
    obtain ⟨inside, hinside, rfl⟩ := ih
    exact ⟨_, hinside.char hc, rfl⟩
  | escape _ _ ih =>
    obtain ⟨inside, hinside, rfl⟩ := ih
    exact ⟨_, hinside.escape _, rfl⟩
  | unit hn _ _ ih =>
    obtain ⟨inside, hinside, rfl⟩ := ih
    exact ⟨_, hinside.unit hn, rfl⟩
  | pair hn _ hm _ _ ih =>
    obtain ⟨inside, hinside, rfl⟩ := ih
    exact ⟨_, (hinside.unit hm).unit hn, rfl⟩

theorem Lexes.literal {cs s left : List Char} (h : ReadsString cs s left) :
    Lexes ('"' :: cs) left := by
  obtain ⟨inside, hinside, rfl⟩ := exists_inside_of_readsString h
  have hquotes : '"' :: (inside ++ '"' :: left) = '"' :: (inside ++ ['"']) ++ left := by simp
  refine ⟨[.literal inside hinside], by simp [Lexeme.isComment], ?_, ?_⟩
  · rw [hquotes, Lexeme.text_cons, Lexeme.text_nil, List.append_nil]
    rfl
  · rw [hquotes, dropLastCommas_append, withoutLastCommas_literal, List.flatMap_singleton]
    rfl

private theorem dropLastCommas_unit {a b c d : Char} {n : Nat} (hn : hexFour? a b c d = some n)
    (cs : List Char) : dropLastCommas ('\\' :: 'u' :: a :: b :: c :: d :: cs) =
      '\\' :: 'u' :: a :: b :: c :: d :: dropLastCommas cs := by
  have hcomma : ',' ∉ ['\\', 'u', a, b, c, d] := by
    intro hmem
    rcases List.mem_cons.mp hmem with h | hmem
    · exact absurd h (by decide)
    rcases List.mem_cons.mp hmem with h | hmem
    · exact absurd h (by decide)
    exact not_mem_of_hexFour? hn rfl hmem
  exact dropLastCommas_append_of_not_mem hcomma cs

/-- An escape that is no second half is none before whatever else. -/
private theorem secondHalf?_unit {n : Nat} {w x y z : Char} {after : List Char}
    (hafter : after.isEmpty = false)
    (hlone : secondHalf? n ('\\' :: 'u' :: w :: x :: y :: z :: after) = .ok none)
    (after' : List Char) :
    secondHalf? n ('\\' :: 'u' :: w :: x :: y :: z :: after') = .ok none := by
  rw [secondHalf?] at hlone ⊢
  rw [hafter, Bool.or_false] at hlone
  split_ifs at hlone with hhigh
  · rw [if_pos (by rw [hhigh, Bool.true_or])]
  · split_ifs
    · rfl
    · cases hm : hexFour? w x y z with
      | none =>
        rw [hm] at hlone
        cases hlone
      | some m =>
        rw [hm] at hlone
        exact hlone

/-- No second half comes up where none was before. -/
private theorem secondHalf?_dropLastCommas {n : Nat} {cs s left : List Char}
    (h : ReadsString cs s left) (hlone : secondHalf? n cs = .ok none) :
    secondHalf? n (dropLastCommas cs) = .ok none := by
  cases h with
  | close left =>
    rw [dropLastCommas_cons_of_ne (by decide)]
    rfl
  | @char c cs _ _ hc _ _ =>
    refine secondHalf?_of_ne fun rest heq => ?_
    have hhead : (dropLastCommas (c :: cs)).head? = some '\\' := by
      rw [heq]
      rfl
    rcases head?_dropLastCommas hhead with hfirst | hother
    · exact hc.2 (Option.some.inj hfirst)
    · exact absurd hother (by decide)
  | @escape e c cs _ _ he _ =>
    have hu : e ≠ 'u' := by
      rintro rfl
      cases he
    have hcomma : e ≠ ',' := by
      rintro rfl
      cases he
    rw [dropLastCommas_cons_of_ne (by decide), dropLastCommas_cons_of_ne hcomma]
    exact secondHalf?_of_ne fun rest heq => hu (List.cons.inj (List.cons.inj heq).2).1
  | unit hn _ h =>
    rw [dropLastCommas_unit hn]
    exact secondHalf?_unit h.isEmpty_eq_false hlone _
  | pair hn _ _ _ h =>
    rw [dropLastCommas_unit hn]
    exact secondHalf?_unit rfl hlone _

/-- A string without such commas is still a string. -/
theorem ReadsString.dropLastCommas {cs s left : List Char} (h : ReadsString cs s left) :
    ∃ s', ReadsString (Json.dropLastCommas cs) s' (Json.dropLastCommas left) := by
  induction h with
  | close left =>
    rw [dropLastCommas_cons_of_ne (by decide)]
    exact ⟨[], .close _⟩
  | @char c cs _ _ hc hspace _ ih =>
    obtain ⟨s', hs'⟩ := ih
    by_cases hdropped : c = ',' ∧ Closes cs
    · rw [hdropped.1, dropLastCommas_comma hdropped.2]
      exact ⟨s', hs'⟩
    · rw [dropLastCommas_cons fun hcomma hcloses => hdropped ⟨hcomma, hcloses⟩]
      exact ⟨_, hs'.char hc hspace⟩
  | @escape e _ _ _ _ he _ ih =>
    obtain ⟨s', hs'⟩ := ih
    have hcomma : e ≠ ',' := by
      rintro rfl
      cases he
    rw [dropLastCommas_cons_of_ne (by decide), dropLastCommas_cons_of_ne hcomma]
    exact ⟨_, hs'.escape he⟩
  | unit hn hlone h ih =>
    obtain ⟨s', hs'⟩ := ih
    rw [dropLastCommas_unit hn]
    exact ⟨_, hs'.unit hn (secondHalf?_dropLastCommas h hlone)⟩
  | pair hn hhigh hm hlow _ ih =>
    obtain ⟨s', hs'⟩ := ih
    rw [dropLastCommas_unit hn, dropLastCommas_unit hm]
    exact ⟨_, hs'.pair hn hhigh hm hlow⟩

/-! ### Words and numbers -/

theorem EndsScalar.dropLastCommas {cs : List Char} (h : EndsScalar cs) :
    EndsScalar (Json.dropLastCommas cs) := by
  intro c hc
  rcases head?_dropLastCommas hc with hfirst | hblank | rfl | rfl
  · exact h c hfirst
  · by_contra hscalar
    rw [isBlank_of_isScalarChar (eq_true_of_ne_false hscalar)] at hblank
    cases hblank
  · decide
  · decide

/-- Blanks go on with no word or number. -/
private theorem endsScalar_of_skipSpace {cs : List Char} (h : EndsScalar (skipSpace cs)) :
    EndsScalar cs := by
  cases cs with
  | nil => exact .nil
  | cons c cs =>
    by_cases hc : isSpace c = true
    · refine .cons ?_ cs
      by_contra hscalar
      have hblank := isBlank_of_isScalarChar (eq_true_of_ne_false hscalar)
      rw [isBlank_of_isSpace hc] at hblank
      cases hblank
    · rwa [skipSpace, List.dropWhile_cons_of_neg hc] at h

private theorem readScalar_dropLastCommas {cs left : List Char} {v : Json}
    (h : readScalar cs = .ok (v, left)) (hleft : EndsScalar left) :
    readScalar (dropLastCommas cs) = .ok (v, dropLastCommas left) := by
  obtain ⟨c, rest, rfl, hc, taken, rfl, htaken⟩ := passesTo_of_readScalar h
  have hchars : ∀ d ∈ c :: taken, isScalarChar d = true := List.forall_mem_cons.mpr ⟨hc, htaken⟩
  have hcomma : ',' ∉ c :: taken := fun hmem => absurd (hchars ',' hmem) (by decide)
  rw [← List.cons_append] at h
  have halone : readScalar (c :: taken) = .ok (v, []) := (readScalar_append hleft).mp h
  rw [← List.cons_append, dropLastCommas_append_of_not_mem hcomma]
  exact (readScalar_append hleft.dropLastCommas).mpr halone

/-! ### Whole documents -/

/-- **What is read is a row of lexemes** without comments, and its commas between values stay. -/
theorem Reads.lexes {room : Nat} {cs left : List Char} {part : Part}
    (h : Reads room cs part left) : Lexes cs left := by
  induction h with
  | string h => exact .literal h
  | emptyArray h => exact (Lexes.opening (.inl rfl) _).trans (.mark (by decide) h)
  | emptyObject h => exact (Lexes.opening (.inr rfl) _).trans (.mark (by decide) h)
  | array _ ih => exact (Lexes.opening (.inl rfl) _).trans ((Lexes.blanks _).trans ih)
  | object _ ih => exact (Lexes.opening (.inr rfl) _).trans ((Lexes.blanks _).trans ih)
  | scalar h =>
    obtain ⟨c, rest, rfl, hc, taken, rfl, htaken⟩ := passesTo_of_readScalar h
    have hscalar : ∀ d ∈ c :: taken, isScalarChar d = true :=
      List.forall_mem_cons.mpr ⟨hc, htaken⟩
    exact Lexes.scalar hscalar
  | lastItem _ hend ih => exact ih.trans (.mark (by decide) hend)
  | item _ hcomma hitems ih ih' =>
    have hnext : Lexes _ _ := (Lexes.comma hcomma hitems.not_closes).trans (.blanks _)
    exact ih.trans (hnext.trans ih')
  | lastField hname hcolon _ hend ih =>
    have hname : Lexes _ _ := (Lexes.literal hname).trans (.mark (by decide) hcolon)
    exact hname.trans ((Lexes.blanks _).trans (ih.trans (.mark (by decide) hend)))
  | field hname hcolon _ hcomma hfields ih ih' =>
    have hname : Lexes _ _ := (Lexes.literal hname).trans (.mark (by decide) hcolon)
    have hnext : Lexes _ _ := (Lexes.comma hcomma hfields.not_closes).trans (.blanks _)
    exact hname.trans ((Lexes.blanks _).trans (ih.trans (hnext.trans ih')))

/-- A part of the same kind is at the head of `cs`. -/
def Part.IsReread (room : Nat) (cs : List Char) (part : Part) (left : List Char) : Prop :=
  match part with
  | .value v => ∃ w : Json, w.kindName = v.kindName ∧ Reads room cs (.value w) left
  | .items _ => ∃ vs, Reads room cs (.items vs) left
  | .fields _ => ∃ named, Reads room cs (.fields named) left

/-- **Without such commas a document is still one**, and of the same kind. -/
theorem Reads.dropLastCommas {room : Nat} {cs left : List Char} {part : Part}
    (h : Reads room cs part left) (hleft : EndsScalar left) :
    part.IsReread room (Json.dropLastCommas cs) (Json.dropLastCommas left) := by
  have hmark : ∀ {cs left : List Char} {c : Char}, c ≠ ',' → skipSpace cs = c :: left →
      skipSpace (Json.dropLastCommas cs) = c :: Json.dropLastCommas left :=
    fun hc h => Json.skipSpace_dropLastCommas h fun hcomma => absurd hcomma hc
  induction h with
  | string h =>
    obtain ⟨s', hs'⟩ := h.dropLastCommas
    rw [dropLastCommas_cons_of_ne (by decide)]
    exact ⟨.str (String.ofList s'), rfl, .string hs'⟩
  | emptyArray h =>
    rw [dropLastCommas_cons_of_ne (by decide)]
    exact ⟨_, rfl, .emptyArray (hmark (by decide) h)⟩
  | emptyObject h =>
    rw [dropLastCommas_cons_of_ne (by decide)]
    exact ⟨_, rfl, .emptyObject (hmark (by decide) h)⟩
  | array h ih =>
    obtain ⟨items, hitems⟩ := ih hleft
    rw [dropLastCommas_cons_of_ne (by decide)]
    rw [← h.skipSpace_dropLastCommas] at hitems
    exact ⟨.arr items, rfl, .array hitems⟩
  | object h ih =>
    obtain ⟨fields, hfields⟩ := ih hleft
    rw [dropLastCommas_cons_of_ne (by decide)]
    rw [← h.skipSpace_dropLastCommas] at hfields
    exact ⟨.obj (Fields.putAll [] fields), rfl, .object hfields⟩
  | scalar h => exact ⟨_, rfl, .scalar (readScalar_dropLastCommas h hleft)⟩
  | lastItem _ hend ih =>
    obtain ⟨v, -, hv⟩ := ih (endsScalar_of_skipSpace (hend ▸ .cons (by decide) _))
    exact ⟨_, .lastItem hv (hmark (by decide) hend)⟩
  | item _ hcomma hitems ih ih' =>
    obtain ⟨v, -, hv⟩ := ih (endsScalar_of_skipSpace (hcomma ▸ .cons (by decide) _))
    obtain ⟨items, hrest⟩ := ih' hleft
    rw [← hitems.skipSpace_dropLastCommas] at hrest
    exact ⟨_, .item hv (Json.skipSpace_dropLastCommas hcomma fun _ => hitems.not_closes) hrest⟩
  | lastField hname hcolon hvalue hend ih =>
    obtain ⟨name, hname⟩ := hname.dropLastCommas
    obtain ⟨v, -, hv⟩ := ih (endsScalar_of_skipSpace (hend ▸ .cons (by decide) _))
    rw [← hvalue.skipSpace_dropLastCommas] at hv
    rw [dropLastCommas_cons_of_ne (by decide)]
    exact ⟨_, .lastField hname (hmark (by decide) hcolon) hv (hmark (by decide) hend)⟩
  | field hname hcolon hvalue hcomma hfields ih ih' =>
    obtain ⟨name, hname⟩ := hname.dropLastCommas
    obtain ⟨v, -, hv⟩ := ih (endsScalar_of_skipSpace (hcomma ▸ .cons (by decide) _))
    obtain ⟨fields, hrest⟩ := ih' hleft
    rw [← hvalue.skipSpace_dropLastCommas] at hv
    rw [← hfields.skipSpace_dropLastCommas] at hrest
    rw [dropLastCommas_cons_of_ne (by decide)]
    exact ⟨_, .field hname (hmark (by decide) hcolon) hv
      (Json.skipSpace_dropLastCommas hcomma fun _ => hfields.not_closes) hrest⟩

private theorem dropComments_of_lexes {cs : List Char} (h : Lexes cs []) :
    dropComments .plain cs = cs := by
  obtain ⟨row, hplain, rfl, -⟩ := h
  have hlines : Lexeme.LinesEnd row := by
    induction row with
    | nil => trivial
    | cons l rest ih =>
      obtain ⟨hl, hrest⟩ := List.forall_mem_cons.mp hplain
      cases l with
      | literal _ _ | run _ _ | blockComment _ _ => exact ih hrest
      | lineComment _ _ => cases hl
  rw [List.append_nil, dropComments_row hlines, List.filter_eq_self.mpr]
  intro l hl
  rw [hplain l hl]
  rfl

private theorem trimmed_eq_iff {row : List Lexeme} (hplain : ∀ l ∈ row, l.isComment = false)
    (hdrop : dropLastCommas (Lexeme.text row) = row.flatMap Lexeme.trimmed) :
    dropLastCommas (Lexeme.text row) = Lexeme.text row ↔ ∀ l ∈ row, ¬l.HidesLastComma := by
  constructor
  · intro h l hl hhides
    cases l with
    | literal inside hinside =>
      obtain ⟨before, after, hsplit, hcloses⟩ := hhides
      obtain ⟨front, back, hrow⟩ := List.append_of_mem hl
      refine @withoutLastCommas_ne_self (Lexeme.text row) ?_ ?_
      · refine ⟨Lexeme.text front ++ '"' :: before, after ++ '"' :: Lexeme.text back, ?_,
          hcloses.append _⟩
        rw [hrow]
        simp [Lexeme.text, Lexeme.chars, hsplit]
      · rwa [← dropLastCommas_eq]
    | run _ _ | lineComment _ _ | blockComment _ _ => exact hhides
  · intro h
    rw [hdrop, Lexeme.text, List.flatMap_def, List.flatMap_def]
    congr 1
    refine List.map_congr_left fun l hl => ?_
    cases l with
    | literal inside hinside => rw [Lexeme.trimmed, withoutLastCommas_inside (h _ hl)]; rfl
    | run _ _ => rfl
    | lineComment _ _ | blockComment _ _ => cases hplain _ hl

theorem isBlankText_of_readWithin {room : Nat} {t : String} {v : Json}
    (h : readWithin room t = .ok v) : Text.isBlankText t = false := by
  obtain ⟨-, left, hread, -⟩ := readWithin_eq_ok_iff.mp h
  obtain ⟨c, rest, hcs, -⟩ := hread.head
  have hnext : nextMark? t.toList = some c := by
    rw [hread.nextMark?, hcs]
    rfl
  rw [Text.isBlankText, List.all_eq_false]
  exact ⟨c, List.mem_of_find?_eq_some hnext, by simpa using List.find?_some hnext⟩

private theorem toList_stripComments_of_lexes {t : String} (h : Lexes t.toList []) :
    (stripComments t).toList = dropLastCommas t.toList := by
  rw [stripComments, String.toList_ofList, dropComments_of_lexes h]

/-- **Plain JSON is stripped** of nothing but the commas before closing marks that its string
literals hold. It is still read then, as a value of the same kind. So an object is loaded from it
with and without stripping, and the same one if there are no such commas. -/
theorem stripComments_plain {room : Nat} {t : String} {v : Json} (h : readWithin room t = .ok v) :
    ∃ row : List Lexeme, t.toList = Lexeme.text row ∧ (∀ l ∈ row, l.isComment = false) ∧
      (stripComments t).toList = row.flatMap Lexeme.trimmed ∧
      (stripComments t = t ↔ ∀ l ∈ row, ¬l.HidesLastComma) ∧
      (∃ w : Json, readWithin room (stripComments t) = .ok w ∧ w.kindName = v.kindName) ∧
      (∀ fields, v = .obj fields → ∀ path strict,
        Config.parse room path t strict false = .ok fields ∧
        ∃ others, Config.parse room path t strict true = .ok others) ∧
      ((∀ l ∈ row, ¬l.HidesLastComma) → ∀ path strict,
        Config.parse room path t strict true = Config.parse room path t strict false) := by
  obtain ⟨hmark, left, hread, hspace⟩ := readWithin_eq_ok_iff.mp h
  have hlexes : Lexes t.toList [] :=
    (Lexes.blanks _).trans (hread.lexes.trans (hspace ▸ Lexes.blanks left))
  have hstrip := toList_stripComments_of_lexes hlexes
  -- the stripped text is read
  have hreread : ∃ w : Json, readWithin room (stripComments t) = .ok w ∧
      w.kindName = v.kindName := by
    have hleft : EndsScalar left := endsScalar_of_skipSpace (hspace ▸ .nil)
    obtain ⟨w, hkind, hw⟩ := hread.dropLastCommas hleft
    rw [← hread.skipSpace_dropLastCommas, dropLastCommas_of_skipSpace hspace, ← hstrip] at hw
    refine ⟨w, readWithin_eq_ok_iff.mpr ⟨fun hhead => ?_, left, hw, hspace⟩, hkind⟩
    rw [hstrip] at hhead
    rcases head?_dropLastCommas hhead with hfirst | hother
    · exact hmark hfirst
    · exact absurd hother (by decide)
  -- and its characters are those of the lexemes
  obtain ⟨row, hplain, htext, hdrop⟩ := hlexes
  rw [List.append_nil] at htext
  have htrimmed : (stripComments t).toList = row.flatMap Lexeme.trimmed := by
    rw [hstrip, hdrop]
    exact List.append_nil _
  have hsame : stripComments t = t ↔ ∀ l ∈ row, ¬l.HidesLastComma := by
    rw [← trimmed_eq_iff hplain (by rw [← htext, ← hstrip, htrimmed]), ← htext, ← hstrip,
      String.toList_inj]
  refine ⟨row, htext, hplain, htrimmed, hsame, hreread, ?_, ?_⟩
  · rintro fields rfl path strict
    obtain ⟨w, hw, hkind⟩ := hreread
    obtain ⟨others, rfl⟩ : ∃ others, w = .obj others := by
      cases w with
      | obj others => exact ⟨others, rfl⟩
      | _ => simp [kindName] at hkind
    constructor
    · simp [Config.parse, h, isBlankText_of_readWithin h]
    · exact ⟨others, by simp [Config.parse, hw, isBlankText_of_readWithin hw]⟩
  · intro hnone path strict
    simp [Config.parse, hsame.mpr hnone]

/-- A comma goes though the text has no comment and no comma after a last item. -/
theorem stripComments_plain_string :
    readWithin 1 "\x7b\"a\": \",]\"\x7d" = .ok (.obj [("a", .str ",]")]) ∧
      stripComments "\x7b\"a\": \",]\"\x7d" = "\x7b\"a\": \"]\"\x7d" ∧
      ∃ others, Config.parse 1 "a.json" "\x7b\"a\": \",]\"\x7d" true true = .ok others := by
  have hname : ReadsString ['a', '"', ':', ' ', '"', ',', ']', '"', '\x7d'] ['a']
      [':', ' ', '"', ',', ']', '"', '\x7d'] :=
    .char (by decide) (by decide) (.close _)
  have hvalue : ReadsString [',', ']', '"', '\x7d'] [',', ']'] ['\x7d'] :=
    .char (by decide) (by decide) (.char (by decide) (by decide) (.close _))
  have hspace : skipSpace "\x7b\"a\": \",]\"\x7d".toList =
      ['\x7b', '"', 'a', '"', ':', ' ', '"', ',', ']', '"', '\x7d'] := by decide
  have hread : readWithin 1 "\x7b\"a\": \",]\"\x7d" = .ok (.obj [("a", .str ",]")]) := by
    refine readWithin_eq_ok_iff.mpr ⟨by decide, [], ?_, rfl⟩
    have hfields : Reads 0 (skipSpace ['"', 'a', '"', ':', ' ', '"', ',', ']', '"', '\x7d'])
        (.fields [("a", .str ",]")]) [] := .lastField hname rfl (.string hvalue) rfl
    rw [hspace]
    exact hfields.object
  obtain ⟨_, -, -, -, -, -, hobject, -⟩ := stripComments_plain hread
  exact ⟨hread, by decide, (hobject _ rfl "a.json" true).2⟩

end Json

end ApiOutline
